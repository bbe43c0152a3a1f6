import Tartine.Fuse.Ioctl
import Tartine.Meta.Pool

/-!
# `Fuse.Fs` — the mounted filesystem's request handlers

`lib.rs` and `write_path.rs` of the FUSE front end. A handler holds the pool's mutex from its first line to its reply, so
it is one atomic program over the disks and the pool: it returns its reply, an `errno`, or panics (which poisons the
mutex: nothing runs after it). `env` is what the request meets outside the program, `now` the clock it reads.

A name arrives as bytes; one that is not UTF-8 is `EINVAL`. The reply buffer of `readdir` takes a number of entries
(`room`) that only the kernel knows.
-/

namespace Tartine.Fuse

open Basis Kcore

/-! ## `write_path.rs` -/

inductive WriteError where
  | notAppendOnlyOrder
  | randomWriteDenied
  | conversionInProgress
  deriving DecidableEq, Repr

inductive WriteKind where
  | append
  | randomWrite
  deriving DecidableEq, Repr

/-- `classify_write`: the kernel core's code, as a typed result. `unreachable!` on any other code. -/
def classifyWrite (inode : InodeRecord) (offset : UInt64) : Res WriteError WriteKind :=
  let code := tartineClassifyWrite (modeToU32 inode.mode) inode.size offset
  if code = writeKindAppend then .ok .append
  else if code = writeKindRandom then .ok .randomWrite
  else if code = errNotAppendOrder then .err .notAppendOnlyOrder
  else if code = errConversionInProgress then .err .conversionInProgress
  else .panic

/-- What is let through, in the words of the modes. -/
theorem classifyWrite_eq (rec : InodeRecord) (offset : UInt64) : classifyWrite rec offset =
    match rec.mode with
    | .appendOnly => if offset = rec.size then .ok .append else .err .notAppendOnlyOrder
    | .converting => if offset = rec.size then .ok .append else .err .conversionInProgress
    | .writable   => .ok .randomWrite := by
  unfold classifyWrite
  cases rec.mode with
  | appendOnly =>
      by_cases hend : offset = rec.size
      · simp [modeToU32, tartineClassifyWrite, modeAppendOnly, hend]
      · simp [modeToU32, tartineClassifyWrite, modeAppendOnly, hend, writeKindAppend, writeKindRandom,
          errNotAppendOrder]
  | converting =>
      by_cases hend : offset = rec.size
      · simp [modeToU32, tartineClassifyWrite, modeAppendOnly, modeConverting, hend]
      · simp [modeToU32, tartineClassifyWrite, modeAppendOnly, modeConverting, hend, writeKindAppend, writeKindRandom,
          errNotAppendOrder, errConversionInProgress]
  | writable =>
      simp [modeToU32, tartineClassifyWrite, modeAppendOnly, modeConverting, modeWritable, writeKindAppend,
        writeKindRandom]

/-- `truncate_allowed`. -/
def truncateAllowed (inode : InodeRecord) : Res WriteError Unit :=
  let code := tartineTruncateAllowed (modeToU32 inode.mode)
  if code = 0 then .ok ()
  else if code = errRandomWriteDenied then .err .randomWriteDenied
  else .panic

/-! ## Replies -/

inductive Errno where
  | eperm
  | enoent
  | eio
  | eagain
  | eexist
  | einval
  | enotty
  | enospc
  | eopnotsupp
  | ealready
  deriving DecidableEq, Repr

/-- `errno_for`. -/
def errnoFor : PoolError → Errno
  | .notFound    => .enoent
  | .wrongMode   => .eperm
  | .unplaceable => .enospc
  | .noDisks     => .einval
  | .io _        => .eio
  | .metaErr _   => .eio

inductive FileType where
  | directory
  | regularFile
  deriving DecidableEq, Repr

/-- The attributes that depend on the record; the rest of the source's structure is constant. -/
structure FileAttr where
  ino : InodeId
  size : UInt64
  blocks : Nat
  /-- Seconds since the epoch, the one time stamp there is. -/
  time : UInt64
  kind : FileType
  perm : UInt32
  uid : UInt32
  gid : UInt32
  deriving DecidableEq, Repr

def fileTypeOf (rec : InodeRecord) : FileType :=
  if rec.unixMode &&& sIfdir = sIfdir then .directory else .regularFile

/-- `attr_of`. A time stamp that a `SystemTime` cannot hold panics. -/
def attrOf (rec : InodeRecord) : Res Errno FileAttr :=
  if 2 ^ 63 ≤ rec.mtimeUnix.toNat then .panic
  else .ok
    { ino := rec.inode, size := rec.size, blocks := (rec.size.toNat + 511) / 512, time := rec.mtimeUnix,
      kind := fileTypeOf rec, perm := rec.unixMode &&& 0o7777, uid := rec.uid, gid := rec.gid }

inductive Reply where
  | ok
  | entry (attr : FileAttr)
  | attr (attr : FileAttr)
  | created (attr : FileAttr)
  | data (bytes : Bytes)
  | written (n : UInt32)
  /-- Directory entries, each with the offset the next call resumes at. -/
  | dir (entries : List (InodeId × Nat × FileType × String))
  | ioctl (bytes : Bytes)
  deriving DecidableEq, Repr

/-- A request handler. -/
abbrev FuseM := Action (World × Pool) Errno

/-! ## Handlers -/

/-- `name_str`. -/
def nameStr (name : Bytes) : FuseM String := Action.reads fun _ =>
  match String.fromUTF8? ⟨name.toArray⟩ with
  | none   => .err .einval
  | some s => .ok s

/-- `get_inode`, with the replies every handler gives when there is no record. -/
def inodeOf (ino : InodeId) : FuseM InodeRecord := Action.reads fun (_, p) =>
  match p.getInode ino with
  | .ok (some rec) => .ok rec
  | .ok none       => .err .enoent
  | .err _         => .err .eio
  | .panic         => .panic

/-- The record behind a directory entry or a file just created: anything but a record is `EIO`. -/
def recordOf (p : Pool) (ino : InodeId) : Res Errno InodeRecord :=
  match p.getInode ino with
  | .ok (some rec) => .ok rec
  | .panic         => .panic
  | _              => .err .eio

def attrReply (rec : InodeRecord) (reply : FileAttr → Reply) : FuseM Reply :=
  Action.reads fun _ => do
    let attr ← attrOf rec
    pure (reply attr)

def lookup (parent : InodeId) (name : Bytes) : FuseM Reply := do
  let name ← nameStr name
  let rec ← Action.reads fun (_, p) =>
    match p.metaStore.view.lookup parent name with
    | some child => recordOf p child
    | none       => .err .enoent
  attrReply rec .entry

def getattr (ino : InodeId) : FuseM Reply := do
  let rec ← inodeOf ino
  attrReply rec .attr

/-- `setattr`: only the truncation check. A size change of a writable file is answered, and ignored. -/
def setattr (ino : InodeId) (size : Option UInt64) : FuseM Reply := do
  let rec ← inodeOf ino
  let refused ← Action.reads fun _ =>
    match size with
    | none         => .ok false
    | some newSize =>
        if newSize = rec.size then .ok false
        else
          match truncateAllowed rec with
          | .ok ()  => .ok false
          | .err _  => .ok true
          | .panic  => .panic
  if refused then Action.reads fun _ => .err .eperm else attrReply rec .attr

/-- `default_redundancy`. -/
def defaultRedundancy (diskCount : Nat) : RedundancyScheme :=
  .replicated (List.replicate (min 2 (max diskCount 1)) (.anyOfClass none))

def create (env : Env) (parent : InodeId) (name : Bytes) (mode uid gid : UInt32) (now : UInt64) : FuseM Reply := do
  let name ← nameStr name
  Action.reads fun (_, p) => if (p.metaStore.view.lookup parent name).isSome then .err .eexist else .ok ()
  let unixMode := sIfreg ||| (mode &&& 0o7777)
  let redundancy ← Action.reads fun (_, p) => .ok (defaultRedundancy p.diskCount)
  let inode ← Action.mapErr errnoFor (Pool.createFile env parent name redundancy uid gid unixMode now)
  let rec ← Action.reads fun (_, p) => recordOf p inode
  attrReply rec .created

def unlink (env : Env) (parent : InodeId) (name : Bytes) : FuseM Reply := do
  let name ← nameStr name
  Action.mapErr errnoFor (Pool.unlink env parent name)
  pure .ok

def read (ino : InodeId) (offset : UInt64) (size : UInt32) : FuseM Reply := do
  let bytes ← Action.mapErr errnoFor (Action.reads fun (w, p) => p.read w ino offset size.toUInt64)
  pure (.data bytes)

/-- `write`: classified by mode and offset, then an append or an overwrite. -/
def write (env : Env) (ino : InodeId) (offset : UInt64) (data : Bytes) : FuseM Reply := do
  let rec ← inodeOf ino
  match classifyWrite rec offset with
  | .ok .append => do
      Action.mapErr errnoFor (Pool.append env ino data)
      pure (.written (UInt32.ofNat data.length))
  | .ok .randomWrite => do
      Action.mapErr errnoFor (Pool.write env ino offset data)
      pure (.written (UInt32.ofNat data.length))
  | .err .notAppendOnlyOrder   => Action.reads fun _ => .err .eperm
  | .err .randomWriteDenied    => Action.reads fun _ => .err .eperm
  | .err .conversionInProgress => Action.reads fun _ => .err .eagain
  | .panic                     => Action.reads fun _ => .panic

/-- `readdir`: `.` and `..`, then the children; the entries from `offset` on, as many as the reply takes. -/
def readdir (ino : InodeId) (offset : UInt64) (room : Nat) : FuseM Reply := Action.reads fun (_, p) =>
  match p.metaStore.view.readdir ino with
  | .err _        => .err .eio
  | .panic        => .panic
  | .ok children  => do
      let entries ← children.mapM fun (name, child) =>
        match p.getInode child with
        | .ok (some rec) => .ok (child, fileTypeOf rec, name)
        | .panic         => .panic
        | _              => .ok (child, FileType.regularFile, name)
      let all := [(ino, FileType.directory, "."), (ino, FileType.directory, "..")] ++ entries
      let numbered := all.zipIdx.map fun (e, i) => (e.1, i + 1, e.2.1, e.2.2)
      pure (.dir ((numbered.drop offset.toNat).take room))

/-- `get_state`: conversion is synchronous, so there is no progress to report. -/
def getState (inode : InodeRecord) : TartineState :=
  let mode :=
    match inode.mode with
    | .appendOnly => tartineModeAppendOnly
    | .converting => tartineModeConverting
    | .writable   => tartineModeWritable
  { mode := mode, bytesTotal := inode.size, bytesConverted := inode.size }

/-- `MAKE_WRITABLE`: begin, and with the wait flag complete. -/
def makeWritable (env : Env) (ino : InodeId) (flags : UInt32) : FuseM Reply := do
  Action.mapErr (fun _ => Errno.ealready) (Pool.beginConvert env ino)
  if flags &&& tartineConvertFlagWait ≠ 0 then do
    Action.mapErr errnoFor (Pool.completeConvert env ino)
    pure (.ioctl [])
  else pure (.ioctl [])

/-- `SET_REDUNDANCY`. -/
def setRedundancy (env : Env) (ino : InodeId) (inData : Bytes) : FuseM Reply := do
  let scheme ← Action.reads fun _ =>
    match decodeSetRedundancy inData with
    | none                    => .err .einval
    | some (.erasureCoded ..) => .err .eopnotsupp
    | some scheme             => .ok scheme
  Action.mapErr errnoFor (Pool.setRedundancy env ino scheme)
  pure (.ioctl [])

def ioctl (env : Env) (ino : InodeId) (cmd : UInt32) (inData : Bytes) : FuseM Reply :=
  if cmd = tartineIocMakeWritable then
    if inData.length < 4 then Action.reads fun _ => .err .einval
    else makeWritable env ino (UInt32.ofNat (leNat (field inData 0 4)))
  else if cmd = tartineIocGetState then do
    let rec ← inodeOf ino
    pure (.ioctl (getState rec).toBytes)
  else if cmd = tartineIocSetRedundancy then setRedundancy env ino inData
  else if cmd = tartineIocGetRedundancy then do
    let rec ← inodeOf ino
    pure (.ioctl (encodeSetRedundancy rec.redundancy))
  else Action.reads fun _ => .err .enotty

/-! ## Requests -/

/-- One request of a client. -/
inductive Request where
  | lookup (parent : InodeId) (name : Bytes)
  | getattr (ino : InodeId)
  | setattr (ino : InodeId) (size : Option UInt64)
  | create (parent : InodeId) (name : Bytes) (mode uid gid : UInt32) (now : UInt64)
  | unlink (parent : InodeId) (name : Bytes)
  | read (ino : InodeId) (offset : UInt64) (size : UInt32)
  | write (ino : InodeId) (offset : UInt64) (data : Bytes)
  | readdir (ino : InodeId) (offset : UInt64) (room : Nat)
  | ioctl (ino : InodeId) (cmd : UInt32) (inData : Bytes)

/-- The handler of a request. -/
def handle (env : Env) : Request → FuseM Reply
  | .lookup parent name                  => lookup parent name
  | .getattr ino                         => getattr ino
  | .setattr ino size                    => setattr ino size
  | .create parent name mode uid gid now => create env parent name mode uid gid now
  | .unlink parent name                  => unlink env parent name
  | .read ino offset size                => read ino offset size
  | .write ino offset data               => write env ino offset data
  | .readdir ino offset room             => readdir ino offset room
  | .ioctl ino cmd inData                => ioctl env ino cmd inData

end Tartine.Fuse
