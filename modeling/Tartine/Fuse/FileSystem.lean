import Tartine.Basis.Simulation
import Tartine.Fuse.Fs
import Tartine.Meta.Directory
import Tartine.Meta.PoolAppend

/-!
# `Fuse.FileSystem` — the file system the daemon is there for

A file system without disks, log, tables or encodings: files under their numbers, each with its bytes, its mode and its
attributes, and directories of names. `FileSystem.request` is what a client is owed: the answer and the file system
after it, or an `errno` and nothing changed. It is written down here from the purpose of each request, to be compared
with the handlers of `Fuse.Fs`.

A file system without disks cannot know whether there is room on them. So a write, and a conversion that waits, may
also be turned away for want of it (`Serves`); a conversion turned away has begun all the same.

* `Serves.became` — what a request makes of each file;
* `fileSystem n` — the machine over `n` disks: its states, and the requests it serves with their replies.
-/

namespace Tartine.Fuse

open Basis Pool

/-! ## Files -/

/-- A file as its users know it. -/
structure File where
  content : Bytes
  mode : InodeMode
  redundancy : RedundancyScheme
  uid : UInt32
  gid : UInt32
  unixMode : UInt32
  time : UInt64
  deriving DecidableEq, Repr

namespace File

def kind (f : File) : FileType := if f.unixMode &&& sIfdir = sIfdir then .directory else .regularFile

def attr (f : File) (ino : InodeId) : FileAttr :=
  { ino := ino, size := UInt64.ofNat f.content.length, blocks := (f.content.length + 511) / 512, time := f.time,
    kind := f.kind, perm := f.unixMode &&& 0o7777, uid := f.uid, gid := f.gid }

/-- What `GET_STATE` tells of the file: a conversion is never seen half done. -/
def state (f : File) : TartineState :=
  let mode :=
    match f.mode with
    | .appendOnly => tartineModeAppendOnly
    | .converting => tartineModeConverting
    | .writable   => tartineModeWritable
  { mode := mode, bytesTotal := UInt64.ofNat f.content.length, bytesConverted := UInt64.ofNat f.content.length }

/-- The content after a write: at the end only, until the file is writable. -/
def written (f : File) (offset : UInt64) (data : Bytes) : Res Errno Bytes :=
  match f.mode with
  | .appendOnly => if offset.toNat = f.content.length then .ok (f.content ++ data) else .err .eperm
  | .converting => if offset.toNat = f.content.length then .ok (f.content ++ data) else .err .eagain
  | .writable   => .ok (overwrite f.content offset.toNat data)

/-- A size may be asked for if it is the size there is, or the file is writable. -/
def Resizable (f : File) : Option UInt64 → Prop
  | none      => True
  | some size => size.toNat = f.content.length ∨ f.mode = .writable

def setContent (content : Bytes) (f : File) : File := { f with content := content }

def setMode (mode : InodeMode) (f : File) : File := { f with mode := mode }

def setPolicy (scheme : RedundancyScheme) (f : File) : File := { f with redundancy := scheme }

instance (f : File) : (size : Option UInt64) → Decidable (f.Resizable size)
  | none   => .isTrue trivial
  | some _ => inferInstanceAs (Decidable (_ ∨ _))

end File

/-! ## Directories -/

/-- Names in the order of their bytes. -/
abbrev byName : String → String → Ordering := compareOn nameBytes

instance : Std.TransCmp byName := inferInstanceAs (Std.TransCmp (compareOn nameBytes))

instance : Std.LawfulEqCmp byName where
  eq_of_compare h := nameBytes_injective (Std.LawfulEqOrd.eq_of_compare h)

/-- The names of a directory, with the numbers they lead to. -/
abbrev Names := Std.ExtTreeMap String InodeId byName

/-! ## The file system -/

structure FileSystem where
  file : InodeId → Option File
  names : InodeId → Names
  /-- The number the next file gets. -/
  next : InodeId

namespace FileSystem

/-- The new file system of `n` disks: its root, and nothing in it. -/
def mounted (n : Nat) (now : UInt64) : FileSystem where
  file i :=
    if i = rootInode then
      some ⟨[], .writable, .replicated (List.replicate (min 2 n) (.anyOfClass none)), 0, 0, sIfdir ||| 0o755, now⟩
    else none
  names _ := ∅
  next := 2

/-- The bytes of each file. -/
def contents (s : FileSystem) : Files := fun i => (s.file i).map File.content

/-- A file changed in place. -/
def modify (s : FileSystem) (ino : InodeId) (g : File → File) : FileSystem :=
  { s with file := Function.update s.file ino ((s.file ino).map g) }

/-- A file of the next number, without a name. -/
def addNameless (s : FileSystem) (f : File) : FileSystem :=
  { s with file := Function.update s.file s.next (some f), next := s.next + 1 }

/-- A name for a number. -/
def link (s : FileSystem) (parent : InodeId) (name : String) (child : InodeId) : FileSystem :=
  { s with names := Function.update s.names parent ((s.names parent).insert name child) }

/-- A file of the next number, under a name. -/
def add (s : FileSystem) (parent : InodeId) (name : String) (f : File) : FileSystem :=
  { file := Function.update s.file s.next (some f),
    names := Function.update s.names parent ((s.names parent).insert name s.next), next := s.next + 1 }

/-- A name taken away. The file stays: nothing counts the names of a file. -/
def remove (s : FileSystem) (parent : InodeId) (name : String) : FileSystem :=
  { s with names := Function.update s.names parent ((s.names parent).erase name) }

/-- The file behind a number. -/
def find (s : FileSystem) (ino : InodeId) : Res Errno File :=
  match s.file ino with
  | none   => .err .enoent
  | some f => .ok f

/-- The file behind a name. -/
def child (s : FileSystem) (parent : InodeId) (name : String) : Res Errno (InodeId × File) :=
  match (s.names parent)[name]? with
  | none     => .err .enoent
  | some ino =>
      match s.file ino with
      | none   => .err .eio
      | some f => .ok (ino, f)

/-- A name is text. -/
def decodeName (name : Bytes) : Res Errno String :=
  match String.fromUTF8? ⟨name.toArray⟩ with
  | none   => .err .einval
  | some s => .ok s

/-- The entries of a directory, each with the offset of the next. -/
def entries (s : FileSystem) (ino : InodeId) : List (InodeId × Nat × FileType × String) :=
  let kindOf := fun child => ((s.file child).map File.kind).getD .regularFile
  let named := (s.names ino).toList.map fun (name, child) => (child, kindOf child, name)
  let all := [(ino, FileType.directory, "."), (ino, FileType.directory, "..")] ++ named
  all.zipIdx.map fun (e, i) => (e.1, i + 1, e.2.1, e.2.2)

/-- A conversion begins with an append-only file; it is complete at once if the client waits for it. -/
def convert (s : FileSystem) (ino : InodeId) (waits : Bool) : Res Errno (Reply × FileSystem) :=
  match s.file ino with
  | none   => .err .ealready
  | some f =>
      if f.mode = .appendOnly then
        .ok (.ioctl [], s.modify ino (.setMode (if waits then .writable else .converting)))
      else .err .ealready

/-- A policy takes effect on the data written from now on. -/
def setPolicy (s : FileSystem) (ino : InodeId) (wire : Bytes) : Res Errno (Reply × FileSystem) :=
  match decodeSetRedundancy wire with
  | none                    => .err .einval
  | some (.erasureCoded ..) => .err .eopnotsupp
  | some scheme             =>
      if (s.file ino).isSome then .ok (.ioctl [], s.modify ino (.setPolicy scheme)) else .err .eio

/-- The wait flag of `MAKE_WRITABLE`. -/
def waits (inData : Bytes) : Bool := UInt32.ofNat (leNat (field inData 0 4)) &&& tartineConvertFlagWait ≠ 0

def control (s : FileSystem) (ino : InodeId) (cmd : UInt32) (inData : Bytes) : Res Errno (Reply × FileSystem) :=
  if cmd = tartineIocMakeWritable then if inData.length < 4 then .err .einval else s.convert ino (waits inData)
  else if cmd = tartineIocGetState then do
    let f ← s.find ino
    pure (.ioctl f.state.toBytes, s)
  else if cmd = tartineIocSetRedundancy then s.setPolicy ino inData
  else if cmd = tartineIocGetRedundancy then do
    let f ← s.find ino
    pure (.ioctl (encodeSetRedundancy f.redundancy), s)
  else .err .enotty

/-- **What a request is owed**: the reply and the file system after it, or an `errno` and nothing changed. A new file has
    two replicas where there are two disks. -/
def request (n : Nat) (s : FileSystem) : Request → Res Errno (Reply × FileSystem)
  | .lookup parent name => do
      let name ← decodeName name
      let (ino, f) ← s.child parent name
      pure (.entry (f.attr ino), s)
  | .getattr ino => do
      let f ← s.find ino
      pure (.attr (f.attr ino), s)
  -- the size a writable file is given is not the size it gets
  | .setattr ino size => do
      let f ← s.find ino
      if f.Resizable size then pure (.attr (f.attr ino), s) else .err .eperm
  | .create parent name mode uid gid now => do
      let name ← decodeName name
      if name ∈ s.names parent then .err .eexist
      else
        let f : File := ⟨[], .appendOnly, defaultRedundancy n, uid, gid, sIfreg ||| (mode &&& 0o7777), now⟩
        pure (.created (f.attr s.next), s.add parent name f)
  -- also of a name that is not there
  | .unlink parent name => do
      let name ← decodeName name
      pure (.ok, s.remove parent name)
  | .read ino offset size => do
      let f ← s.find ino
      pure (.data (window f.content offset size.toUInt64), s)
  | .write ino offset data => do
      let f ← s.find ino
      let content ← f.written offset data
      pure (.written (UInt32.ofNat data.length), s.modify ino (.setContent content))
  | .readdir ino offset room => .ok (.dir (((s.entries ino).drop offset.toNat).take room), s)
  | .ioctl ino cmd inData => s.control ino cmd inData

/-- One request served. -/
inductive Serves (n : Nat) (s : FileSystem) : Request × Res Errno Reply → FileSystem → Prop where
  | granted {req a s'} (h : s.request n req = .ok (a, s')) : Serves n s (req, .ok a) s'
  | refused {req e} (h : s.request n req = .err e) : Serves n s (req, .err e) s
  -- a write that would be granted finds no disks that meet the file's policy
  | unplaced {ino offset data a s'} (h : s.request n (.write ino offset data) = .ok (a, s')) :
      Serves n s (.write ino offset data, .err .enospc) s
  -- or no room for another piece of the file
  | full {ino offset data f a s'} (h : s.request n (.write ino offset data) = .ok (a, s')) (hf : s.file ino = some f)
      (hmode : f.mode ≠ .writable) : Serves n s (.write ino offset data, .err .eio) s
  -- a conversion that finds no disks leaves its file converting
  | stuck {ino inData a s'} (h : s.request n (.ioctl ino tartineIocMakeWritable inData) = .ok (a, s'))
      (hwaits : waits inData) :
      Serves n s (.ioctl ino tartineIocMakeWritable inData, .err .enospc)
        (s.modify ino (.setMode .converting))

/-! ## What a request makes of a file -/

variable {n : Nat} {s s' : FileSystem} {req : Request} {r : Res Errno Reply} {ino i : InodeId} {f : File}

/-- What stands under a number after a request. -/
inductive Became (n : Nat) (s : FileSystem) (i : InodeId) : Request → Option File → Prop where
  | same {req : Request} : Became n s i req (s.file i)
  | created {parent name mode uid gid now} (hi : i = s.next) : Became n s i (.create parent name mode uid gid now)
      (some ⟨[], .appendOnly, defaultRedundancy n, uid, gid, sIfreg ||| (mode &&& 0o7777), now⟩)
  | written {offset data content} {f : File} (hf : s.file i = some f) (hwrite : f.written offset data = .ok content) :
      Became n s i (.write i offset data) (some (f.setContent content))
  | converted {inData mode} {f : File} (hf : s.file i = some f) (hmode : mode = .writable → waits inData) :
      Became n s i (.ioctl i tartineIocMakeWritable inData) (some (f.setMode mode))
  | policed {inData scheme} {f : File} (hf : s.file i = some f) (hdecode : decodeSetRedundancy inData = some scheme) :
      Became n s i (.ioctl i tartineIocSetRedundancy inData) (some (f.setPolicy scheme))

/-- A file changed in place: it stands where it stood, and the others as they were. -/
theorem Became.of_modify {g : File → File}
    (h : ∀ f, s.file ino = some f → Became n s ino req (some (g f))) : Became n s i req ((s.modify ino g).file i) := by
  by_cases hi : i = ino
  · subst hi
    simp only [modify, Function.update_self]
    cases hf : s.file i with
    | none =>
        rw [Option.map_none, ← hf]
        exact .same
    | some f => exact h f hf
  · simp only [modify, Function.update_of_ne hi]
    exact .same

theorem Became.of_eq (hs : s' = s) : Became n s i req (s'.file i) := by
  subst hs
  exact .same

theorem find_eq_ok (h : s.find ino = .ok f) : s.file ino = some f := by
  unfold find at h
  split at h
  · cases h
  · rename_i hf
    obtain rfl := Res.ok.inj h
    exact hf

theorem Became.of_control {cmd : UInt32} {inData : Bytes} {a : Reply} (h : s.control ino cmd inData = .ok (a, s')) :
    Became n s i (.ioctl ino cmd inData) (s'.file i) := by
  have hreads : ∀ g : File → Bytes, (s.find ino >>= fun f => .ok (.ioctl (g f), s)) = .ok (a, s') → s' = s := by
    intro g h
    obtain ⟨f, -, h⟩ := Res.bind_eq_ok.mp h
    exact (Prod.mk.inj (Res.ok.inj h)).2.symm
  unfold control at h
  split at h
  · rename_i hcmd
    subst hcmd
    split at h
    · cases h
    · unfold convert at h
      split at h
      · cases h
      · split at h
        · obtain ⟨-, rfl⟩ := Prod.mk.inj (Res.ok.inj h)
          refine .of_modify fun f hf => .converted hf fun hmode => ?_
          split at hmode
          · assumption
          · cases hmode
        · cases h
  · split at h
    · exact .of_eq (hreads _ h)
    · split at h
      · rename_i hcmd
        subst hcmd
        unfold setPolicy at h
        split at h
        · cases h
        · cases h
        · rename_i hdecode
          split at h
          · obtain ⟨-, rfl⟩ := Prod.mk.inj (Res.ok.inj h)
            exact .of_modify fun f hf => .policed hf hdecode
          · cases h
      · split at h
        · exact .of_eq (hreads _ h)
        · cases h

/-- **What a granted request makes of each file.** -/
theorem Became.of_request {a : Reply} (h : s.request n req = .ok (a, s')) : Became n s i req (s'.file i) := by
  cases req with
  | lookup parent name =>
      obtain ⟨name', -, h⟩ := Res.bind_eq_ok.mp h
      obtain ⟨⟨child, f⟩, -, h⟩ := Res.bind_eq_ok.mp h
      exact .of_eq (Prod.mk.inj (Res.ok.inj h)).2.symm
  | getattr ino =>
      obtain ⟨f, -, h⟩ := Res.bind_eq_ok.mp h
      exact .of_eq (Prod.mk.inj (Res.ok.inj h)).2.symm
  | setattr ino size =>
      obtain ⟨f, -, h⟩ := Res.bind_eq_ok.mp h
      split at h
      · exact .of_eq (Prod.mk.inj (Res.ok.inj h)).2.symm
      · cases h
  | create parent name mode uid gid now =>
      obtain ⟨name', -, h⟩ := Res.bind_eq_ok.mp h
      split at h
      · cases h
      · obtain ⟨-, rfl⟩ := Prod.mk.inj (Res.ok.inj h)
        by_cases hi : i = s.next
        · subst hi
          simp only [add, Function.update_self]
          exact .created rfl
        · simp only [add, Function.update_of_ne hi]
          exact .same
  | unlink parent name =>
      obtain ⟨name', -, h⟩ := Res.bind_eq_ok.mp h
      obtain ⟨-, rfl⟩ := Prod.mk.inj (Res.ok.inj h)
      exact .same
  | read ino offset size =>
      obtain ⟨f, -, h⟩ := Res.bind_eq_ok.mp h
      exact .of_eq (Prod.mk.inj (Res.ok.inj h)).2.symm
  | write ino offset data =>
      obtain ⟨f, hf, h⟩ := Res.bind_eq_ok.mp h
      obtain ⟨content, hwrite, h⟩ := Res.bind_eq_ok.mp h
      obtain ⟨-, rfl⟩ := Prod.mk.inj (Res.ok.inj h)
      refine .of_modify fun f' hf' => ?_
      obtain rfl := Option.some.inj ((find_eq_ok hf).symm.trans hf')
      exact .written hf' hwrite
  | readdir ino offset room => exact .of_eq (Prod.mk.inj (Res.ok.inj h)).2.symm
  | ioctl ino cmd inData => exact .of_control h

/-- **And one that was served**, granted or not. -/
theorem Serves.became (h : s.Serves n (req, r) s') (i : InodeId) : Became n s i req (s'.file i) := by
  cases h with
  | granted hreq => exact .of_request hreq
  | refused hreq => exact .same
  | unplaced hreq => exact .same
  | full hreq hfile hmode => exact .same
  | stuck hreq hwaits => exact .of_modify fun f hf => .converted hf fun hmode => by cases hmode

end FileSystem

/-- **The machine.** -/
def fileSystem (n : Nat) : Machine FileSystem (Request × Res Errno Reply) where
  start s := ∃ now, s = .mounted n now
  step s e s' := s.Serves n e s'

end Tartine.Fuse
