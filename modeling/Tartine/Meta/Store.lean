import Tartine.Kcore.WritePath
import Tartine.Meta.CodecRoundTrip
import Tartine.Meta.Wal

/-!
# `Meta.Store` — the replicated log and the tables rebuilt from it

`lib.rs` (`MetaReplicator`) and `store.rs` (`MetaStore`). An operation is encoded, framed and written to the
primary and then the backup metadata disk at the log cursor; only then is it applied to the tables. The tables
are two ordered maps (redb's): inode records as their encoded bytes, and directory entries under
`parent ++ name`. They are never read back from disk: `openStore` rebuilds them by replaying the log.

A panic of the source (`decode_op` on malformed bytes, an arithmetic overflow) is `Res.panic`.

* `commit_outcome` — what a commit can do to the two disks, and what it then reports;
* `apply_outcome` — what `apply` does with it, and with the tables.
-/

namespace Tartine

open Basis Codec Kcore

/-! ## `MetaReplicator` -/

inductive CommitError where
  | backupUnavailable (e : IoError)
  | primaryUnavailable (e : IoError)
  deriving DecidableEq, Repr

/-- The metadata group, and the disks it currently writes to. -/
structure MetaReplicator where
  group : MetaGroup
  primaryDisk : DiskRef
  backupDisk : Option DiskRef

namespace MetaReplicator

/-- `commit`: the primary first, then, if there is one, the backup. -/
def commit (env : Env) (w : World) (r : MetaReplicator) (encodedOp : Bytes) (offset : Nat) :
    Except CommitError Unit × World :=
  match w.writeSync env r.primaryDisk offset encodedOp with
  | (.error e, w) => (.error (.primaryUnavailable e), w)
  | (.ok (), w)   =>
      match r.backupDisk with
      | none        => (.ok (), w)
      | some backup =>
          match w.writeSync env backup offset encodedOp with
          | (.error e, w) => (.error (.backupUnavailable e), w)
          | (.ok (), w)   => (.ok (), w)

/-- `fence_backup`: drop to primary-only under the next epoch. The epoch's overflow panics. -/
def fenceBackup (r : MetaReplicator) : Res CommitError MetaReplicator := do
  let epoch ← Res.checkedAdd r.group.epoch 1
  pure { r with group := { r.group with backup := none, epoch := epoch }, backupDisk := none }

/-- `promote_new_backup`. -/
def promoteNewBackup (r : MetaReplicator) (diskId : DiskId) (disk : DiskRef) :
    Res CommitError MetaReplicator := do
  let epoch ← Res.checkedAdd r.group.epoch 1
  pure { r with group := { r.group with backup := some diskId, epoch := epoch }, backupDisk := some disk }

end MetaReplicator

/-! ## What a commit can do -/

/-- The ways a commit of `buf` at `off` can end: durable on every member of the group; durable on the primary
    with the backup left in some state inside the target range; or the primary itself left so, the backup
    untouched. -/
inductive CommitOutcome (w : World) (r : MetaReplicator) (buf : Bytes) (off : Nat) (w' : World) :
    Except CommitError Unit → Prop where
  | durable (hp : w'.disk r.primaryDisk = (w.disk r.primaryDisk).writeAt off buf)
      (hb : ∀ b, r.backupDisk = some b → w'.disk b = (w.disk b).writeAt off buf)
      (ho : ∀ x, x ≠ r.primaryDisk → r.backupDisk ≠ some x → w'.disk x = w.disk x) :
      CommitOutcome w r buf off w' (.ok ())
  | backupLost {b left} (hp : w'.disk r.primaryDisk = (w.disk r.primaryDisk).writeAt off buf)
      (hback : r.backupDisk = some b) (hleft : left.length ≤ buf.length)
      (hb : w'.disk b = (w.disk b).writeAt off left)
      (ho : ∀ x, x ≠ r.primaryDisk → r.backupDisk ≠ some x → w'.disk x = w.disk x) :
      CommitOutcome w r buf off w' (.error (.backupUnavailable .device))
  | primaryLost {left} (hleft : left.length ≤ buf.length)
      (hp : w'.disk r.primaryDisk = (w.disk r.primaryDisk).writeAt off left)
      (ho : ∀ x, x ≠ r.primaryDisk → w'.disk x = w.disk x) :
      CommitOutcome w r buf off w' (.error (.primaryUnavailable .device))

/-- **Every commit ends in one of these ways**, as long as the two metadata disks are different. -/
theorem commit_outcome (env : Env) (w : World) (r : MetaReplicator) (buf : Bytes) (off : Nat)
    (hne : r.backupDisk ≠ some r.primaryDisk) :
    CommitOutcome w r buf off (r.commit env w buf off).2 (r.commit env w buf off).1 := by
  unfold MetaReplicator.commit
  rcases World.writeSync_cases env w r.primaryDisk off buf with ⟨k, hw⟩ | ⟨left, k, hleft, hw⟩
  · -- the primary's copy is durable: what is left depends on the backup
    rw [hw]
    cases hback : r.backupDisk with
    | none =>
        refine .durable (World.setDisk_self) (fun b hb => ?_) (fun x hx _ => World.setDisk_of_ne hx)
        rw [hback] at hb
        cases hb
    | some b =>
        have hbp : b ≠ r.primaryDisk := by
          intro h
          exact hne (by rw [hback, h])
        -- the backup is written on top of the world that already has the primary's copy
        generalize hw1 : ({ w.setDisk r.primaryDisk ((w.disk r.primaryDisk).writeAt off buf) with clock := k }
          : World) = w1
        have hw1p : w1.disk r.primaryDisk = (w.disk r.primaryDisk).writeAt off buf := by
          rw [← hw1]; exact World.setDisk_self
        have hw1o : ∀ x, x ≠ r.primaryDisk → w1.disk x = w.disk x := by
          intro x hx; rw [← hw1]; exact World.setDisk_of_ne hx
        rcases World.writeSync_cases env w1 b off buf with ⟨k', hw'⟩ | ⟨left, k', hleft, hw'⟩
        · simp only [hw']
          refine .durable ?_ ?_ ?_
          · exact (World.setDisk_of_ne hbp.symm).trans hw1p
          · intro b' hb'
            obtain rfl : b = b' := Option.some.inj (hback.symm.trans hb')
            exact World.setDisk_self.trans (by rw [hw1o b hbp])
          · intro x hx hxb
            have hxne : x ≠ b := by rintro rfl; exact hxb hback
            exact (World.setDisk_of_ne hxne).trans (hw1o x hx)
        · simp only [hw']
          refine .backupLost ?_ hback hleft ?_ ?_
          · exact (World.setDisk_of_ne hbp.symm).trans hw1p
          · exact World.setDisk_self.trans (by rw [hw1o b hbp])
          · intro x hx hxb
            have hxne : x ≠ b := by rintro rfl; exact hxb hback
            exact (World.setDisk_of_ne hxne).trans (hw1o x hx)
  · -- the primary was lost: the backup is never asked
    rw [hw]
    exact .primaryLost hleft World.setDisk_self (fun x hx => World.setDisk_of_ne hx)

/-- However a commit ends, a disk is as it was or written only inside the target range. -/
theorem CommitOutcome.disk {w w' : World} {r : MetaReplicator} {buf : Bytes} {off : Nat}
    {report : Except CommitError Unit} (hc : CommitOutcome w r buf off w' report) (x : DiskRef) :
    w'.disk x = w.disk x ∨ ∃ left, left.length ≤ buf.length ∧ w'.disk x = (w.disk x).writeAt off left := by
  by_cases hp : x = r.primaryDisk
  · subst hp
    right
    cases hc with
    | durable hp hb ho => exact ⟨_, Nat.le_refl _, hp⟩
    | backupLost hp hback hleft hb ho => exact ⟨_, Nat.le_refl _, hp⟩
    | primaryLost hleft hp ho => exact ⟨_, hleft, hp⟩
  · by_cases hb : r.backupDisk = some x
    · cases hc with
      | durable hp' hb' ho => exact Or.inr ⟨_, Nat.le_refl _, hb' x hb⟩
      | @backupLost b left hp' hback hleft hb' ho =>
          obtain rfl : b = x := Option.some.inj (hback.symm.trans hb)
          exact Or.inr ⟨left, hleft, hb'⟩
      | primaryLost hleft hp' ho => exact Or.inl (ho x hp)
    · -- not a member of the group
      left
      cases hc with
      | durable hp' hb' ho => exact ho x hp hb
      | backupLost hp' hback hleft hb' ho => exact ho x hp hb
      | primaryLost hleft hp' ho => exact ho x hp

/-! ## The materialized view -/

inductive MetaStoreError where
  | commit (e : CommitError)
  /-- A table error; the only one modelled is a directory key whose name is not UTF-8. -/
  | redb (name : Bytes)
  | io (e : IoError)
  | invalidOp (msg : String)
  deriving DecidableEq, Repr

/-- The tables, and the next free inode number. -/
structure View where
  inodes : Std.ExtTreeMap InodeId Bytes
  dirs : Std.ExtTreeMap Bytes InodeId
  nextInode : InodeId

namespace View

/-- The view of an empty log. -/
def empty : View := ⟨∅, ∅, 1⟩

/-- `dir_key`: `parent` as 8 little-endian bytes, then the name. -/
def dirKey (parent : InodeId) (name : String) : Bytes := leBytes 8 parent.toNat ++ name.toUTF8.data.toList

/-- `read_inode`. -/
def readInode (v : View) (id : InodeId) : Res MetaStoreError InodeRecord :=
  match v.inodes[id]? with
  | none       => .err (.invalidOp "operation referenced an inode that doesn't exist")
  | some bytes =>
      match decodeInodeRecord bytes with
      | none          => .panic
      | some (rec, _) => .ok rec

/-- `write_inode`: under the record's own number. -/
def writeInode (v : View) (rec : InodeRecord) : View :=
  { v with inodes := v.inodes.insert rec.inode (encodeInodeRecord rec) }

end View

/-- `mode_to_u32`. -/
def modeToU32 : InodeMode → UInt32
  | .appendOnly => modeAppendOnly
  | .converting => modeConverting
  | .writable   => modeWritable

/-- `u32_to_mode`: `unreachable!` on anything else. -/
def u32ToMode (m : UInt32) : Res MetaStoreError InodeMode :=
  if m = modeAppendOnly then .ok .appendOnly
  else if m = modeConverting then .ok .converting
  else if m = modeWritable then .ok .writable
  else .panic

/-- A mode transition: rejected with `msg` on a negative code. -/
def stepMode (transition : UInt32 → Int) (msg : String) (mode : InodeMode) : Res MetaStoreError InodeMode :=
  let newMode := transition (modeToU32 mode)
  if newMode < 0 then .err (.invalidOp msg) else u32ToMode (UInt32.ofNat newMode.toNat)

/-- The ends of a list of extents; an overflow panics. -/
def extentEnds (extents : List Extent) : Res MetaStoreError (List UInt64) :=
  extents.mapM fun x => Res.checkedAdd x.fileOffset x.len.toUInt64

namespace View

/-- `apply_locally`: one transaction on the tables. An error aborts it, so the view it started from stays. -/
def applyLocally (v : View) : MetaOp → Res MetaStoreError View
  | .createInode rec => do
      let next ← Res.checkedAdd rec.inode 1
      -- an inode created under an old number never lowers the counter
      pure { v.writeInode rec with nextInode := max v.nextInode next }
  | .link parent name child => pure { v with dirs := v.dirs.insert (dirKey parent name) child }
  | .unlink parent name => pure { v with dirs := v.dirs.erase (dirKey parent name) }
  | .appendChunk inode chunk => do
      let rec ← v.readInode inode
      match rec.data with
      | .chunkLog chunks => do
          let size ← Res.checkedAdd rec.size chunk.len.toUInt64
          pure (v.writeInode { rec with data := .chunkLog (chunks ++ [chunk]), size := size })
      | .extents _ => .err (.invalidOp "AppendChunk against a Writable (extent-mapped) file")
  | .beginConvert inode => do
      let rec ← v.readInode inode
      let mode ← stepMode tartineBeginConvert
        "BeginConvert on a file that's already Converting or Writable" rec.mode
      pure (v.writeInode { rec with mode := mode })
  | .completeConvert inode extents => do
      let rec ← v.readInode inode
      let mode ← stepMode tartineCompleteConvert "CompleteConvert called out of order" rec.mode
      pure (v.writeInode { rec with mode := mode, data := .extents extents })
  | .setRedundancyScheme inode scheme => do
      let rec ← v.readInode inode
      pure (v.writeInode { rec with redundancy := scheme })
  | .updateExtents inode extents => do
      let rec ← v.readInode inode
      if rec.mode ≠ .writable then
        .err (.invalidOp "UpdateExtents against a file that isn't Writable yet")
      else do
        let ends ← extentEnds extents
        pure (v.writeInode { rec with size := ends.foldl max 0, data := .extents extents })
  -- logged, but no table holds them
  | .poolMapChange _ => pure v
  | .metaGroupChange _ => pure v

/-- One log entry: malformed bytes panic in `decode_op`. -/
def replayEntry (v : View) (payload : Bytes) : Res MetaStoreError View :=
  match decodeOp payload with
  | none    => .panic
  | some op => v.applyLocally op

/-- The replay loop of `open`. -/
def replay (v : View) (payloads : List Bytes) : Res MetaStoreError View := payloads.foldlM replayEntry v

/-- `get_inode`. -/
def getInode (v : View) (id : InodeId) : Res MetaStoreError (Option InodeRecord) :=
  match v.inodes[id]? with
  | none       => .ok none
  | some bytes =>
      match decodeInodeRecord bytes with
      | none          => .panic
      | some (rec, _) => .ok (some rec)

/-- `lookup`. -/
def lookup (v : View) (parent : InodeId) (name : String) : Option InodeId := v.dirs[dirKey parent name]?

/-- The name of a directory key, after its 8-byte parent. -/
def dirName (e : Bytes × InodeId) : Res MetaStoreError (String × InodeId) :=
  match String.fromUTF8? ⟨(e.1.drop 8).toArray⟩ with
  | none      => .err (.redb (e.1.drop 8))
  | some name => .ok (name, e.2)

/-- `readdir`: the keys from the parent's prefix on, as long as they start with it. -/
def readdir (v : View) (parent : InodeId) : Res MetaStoreError (List (String × InodeId)) :=
  let pre := leBytes 8 parent.toNat
  let fromPrefix := v.dirs.toList.dropWhile (fun e => compare e.1 pre == .lt)
  (fromPrefix.takeWhile (fun e => pre.isPrefixOf e.1)).mapM dirName

end View

/-! ## `MetaStore` -/

structure MetaStore where
  replicator : MetaReplicator
  walBaseOffset : Nat
  walCursor : Nat
  view : View

namespace MetaStore

/-- `open`: scan the primary's log, then replay it into empty tables. -/
def openStore (w : World) (group : MetaGroup) (primary : DiskRef) (backup : Option DiskRef) :
    Res MetaStoreError MetaStore := do
  let scan := Wal.scan (w.disk primary) 0
  let view ← View.empty.replay scan.entries
  pure { replicator := ⟨group, primary, backup⟩, walBaseOffset := 0, walCursor := scan.resumeAt, view := view }

def group (s : MetaStore) : MetaGroup := s.replicator.group

/-- `alloc_inode`: overflow panics. -/
def allocInode (s : MetaStore) : Res MetaStoreError (InodeId × MetaStore) := do
  let next ← Res.checkedAdd s.view.nextInode 1
  pure (s.view.nextInode, { s with view := { s.view with nextInode := next } })

/-- The last step of `apply`: the local transaction, after the cursor has moved. -/
def applyView (s : MetaStore) (op : MetaOp) : Res MetaStoreError Unit × MetaStore :=
  match s.view.applyLocally op with
  | .ok view => (.ok (), { s with view := view })
  | .err e   => (.err e, s)
  | .panic   => (.panic, s)

/-- The frame `apply` writes for an operation. -/
def opFrame (ord : IterOrder) (op : MetaOp) : Bytes := Wal.buildFrame (encodeOp ord op)

theorem opFrame_pos (ord : IterOrder) (op : MetaOp) : 0 < (opFrame ord op).length := by
  rw [opFrame, Wal.length_buildFrame]
  unfold Wal.headerLen
  omega

/-- `apply`: make the operation durable, then visible. A lost backup is fenced and the operation goes on; a lost
    primary is an error, and nothing moves. -/
def apply (env : Env) (w : World) (s : MetaStore) (op : MetaOp) :
    Res MetaStoreError Unit × World × MetaStore :=
  let frame := opFrame env.ord op
  let offset := s.walBaseOffset + s.walCursor
  match s.replicator.commit env w frame offset with
  | (.ok (), w) =>
      let (r, s) := { s with walCursor := s.walCursor + frame.length }.applyView op
      (r, w, s)
  | (.error (.backupUnavailable _), w) =>
      match s.replicator.fenceBackup with
      | .ok replicator =>
          let (r, s) := { s with replicator := replicator, walCursor := s.walCursor + frame.length }.applyView op
          (r, w, s)
      | _ => (.panic, w, s)
  | (.error (.primaryUnavailable e), w) => (.err (.commit (.primaryUnavailable e)), w, s)

/-! ## What `apply` can do -/

/-- The store after its cursor moved past a frame. -/
def advance (s : MetaStore) (n : Nat) : MetaStore := { s with walCursor := s.walCursor + n }

/-- The store after its backup was fenced out of the group. -/
def fenced (s : MetaStore) (epoch : UInt64) : MetaStore :=
  { s with replicator := { s.replicator with
      group := { s.replicator.group with backup := none, epoch := epoch }, backupDisk := none } }

@[simp] theorem advance_replicator (s : MetaStore) (n : Nat) : (s.advance n).replicator = s.replicator := rfl
@[simp] theorem advance_walBaseOffset (s : MetaStore) (n : Nat) :
    (s.advance n).walBaseOffset = s.walBaseOffset := rfl
@[simp] theorem advance_walCursor (s : MetaStore) (n : Nat) : (s.advance n).walCursor = s.walCursor + n := rfl
@[simp] theorem advance_view (s : MetaStore) (n : Nat) : (s.advance n).view = s.view := rfl
@[simp] theorem fenced_primaryDisk (s : MetaStore) (epoch : UInt64) :
    (s.fenced epoch).replicator.primaryDisk = s.replicator.primaryDisk := rfl
@[simp] theorem fenced_backupDisk (s : MetaStore) (epoch : UInt64) :
    (s.fenced epoch).replicator.backupDisk = none := rfl
@[simp] theorem fenced_group (s : MetaStore) (epoch : UInt64) :
    (s.fenced epoch).replicator.group = { s.replicator.group with backup := none, epoch := epoch } := rfl
@[simp] theorem fenced_walBaseOffset (s : MetaStore) (epoch : UInt64) :
    (s.fenced epoch).walBaseOffset = s.walBaseOffset := rfl
@[simp] theorem fenced_walCursor (s : MetaStore) (epoch : UInt64) :
    (s.fenced epoch).walCursor = s.walCursor := rfl
@[simp] theorem fenced_view (s : MetaStore) (epoch : UInt64) : (s.fenced epoch).view = s.view := rfl

/-- The ways `apply` can end, by what its commit reported: with the operation in the log and applied to the tables
    (or rejected by them), the group as it was or without its backup; stopped by the epoch's overflow; or without
    the primary, unchanged. -/
inductive ApplyOutcome (w : World) (s : MetaStore) (op : MetaOp) (frame : Bytes) :
    Except CommitError Unit → Res MetaStoreError Unit → World → MetaStore → Prop where
  | logged {w'}
      (hc : CommitOutcome w s.replicator frame (s.walBaseOffset + s.walCursor) w' (.ok ())) :
      ApplyOutcome w s op frame (.ok ())
        ((s.advance frame.length).applyView op).1 w' ((s.advance frame.length).applyView op).2
  | degraded {w' epoch}
      (hc : CommitOutcome w s.replicator frame (s.walBaseOffset + s.walCursor) w'
        (.error (.backupUnavailable .device)))
      (hepoch : epoch.toNat = s.group.epoch.toNat + 1) :
      ApplyOutcome w s op frame (.error (.backupUnavailable .device))
        (((s.fenced epoch).advance frame.length).applyView op).1 w'
        (((s.fenced epoch).advance frame.length).applyView op).2
  | epochOverflow {w'}
      (hc : CommitOutcome w s.replicator frame (s.walBaseOffset + s.walCursor) w'
        (.error (.backupUnavailable .device))) :
      ApplyOutcome w s op frame (.error (.backupUnavailable .device)) .panic w' s
  | refused {w'}
      (hc : CommitOutcome w s.replicator frame (s.walBaseOffset + s.walCursor) w'
        (.error (.primaryUnavailable .device))) :
      ApplyOutcome w s op frame (.error (.primaryUnavailable .device))
        (.err (.commit (.primaryUnavailable .device))) w' s

/-- The commit step of `apply`. -/
def commitReport (env : Env) (w : World) (s : MetaStore) (op : MetaOp) : Except CommitError Unit :=
  (s.replicator.commit env w (opFrame env.ord op) (s.walBaseOffset + s.walCursor)).1

/-- **Every `apply` ends in one of these ways.** -/
theorem apply_outcome {env : Env} {w w' : World} {s s' : MetaStore} {op : MetaOp} {res : Res MetaStoreError Unit}
    (hne : s.replicator.backupDisk ≠ some s.replicator.primaryDisk) (h : s.apply env w op = (res, w', s')) :
    ApplyOutcome w s op (opFrame env.ord op) (s.commitReport env w op) res w' s' := by
  obtain ⟨rfl, rfl, rfl⟩ : (s.apply env w op).1 = res ∧ (s.apply env w op).2.1 = w' ∧
      (s.apply env w op).2.2 = s' := by rw [h]; exact ⟨rfl, rfl, rfl⟩
  clear h
  have hc := commit_outcome env w s.replicator (opFrame env.ord op) (s.walBaseOffset + s.walCursor) hne
  unfold apply commitReport
  dsimp only
  generalize s.replicator.commit env w (opFrame env.ord op) (s.walBaseOffset + s.walCursor) = out at hc ⊢
  obtain ⟨report, w'⟩ := out
  dsimp only at hc ⊢
  cases hc with
  | durable hp hb ho => exact .logged (.durable hp hb ho)
  | backupLost hp hback hleft hb ho =>
      unfold MetaReplicator.fenceBackup
      cases hadd : (Res.checkedAdd s.replicator.group.epoch 1 : Res CommitError UInt64) with
      | ok epoch =>
          exact .degraded (.backupLost hp hback hleft hb ho) (Res.checkedAdd_eq_ok.mp hadd)
      -- the epoch is at its maximum: `+= 1` panics before the backup is dropped
      | err e => exact .epochOverflow (.backupLost hp hback hleft hb ho)
      | panic => exact .epochOverflow (.backupLost hp hback hleft hb ho)
  | primaryLost hleft hp ho => exact .refused (.primaryLost hleft hp ho)

/-- On healthy disks every commit is durable. -/
theorem commitReport_healthy (ord : IterOrder) (w : World) (s : MetaStore) (op : MetaOp) :
    s.commitReport (Env.healthy ord) w op = .ok () := by
  unfold commitReport MetaReplicator.commit
  rw [World.writeSync_healthy]
  cases s.replicator.backupDisk with
  | none => rfl
  | some b => rfl

/-- On healthy disks `apply` is: write the frame, move the cursor, ask the tables. -/
theorem apply_healthy (ord : IterOrder) (w : World) (s : MetaStore) (op : MetaOp) :
    ∃ w', s.apply (Env.healthy ord) w op =
      (((s.advance (opFrame ord op).length).applyView op).1, w',
        ((s.advance (opFrame ord op).length).applyView op).2) := by
  have hreport := commitReport_healthy ord w s op
  unfold commitReport at hreport
  unfold apply
  dsimp only
  generalize s.replicator.commit (Env.healthy ord) w (opFrame (Env.healthy ord).ord op)
    (s.walBaseOffset + s.walCursor) = out at hreport ⊢
  obtain ⟨report, w'⟩ := out
  dsimp only at hreport
  subst hreport
  exact ⟨w', rfl⟩

@[simp] theorem applyView_replicator (s : MetaStore) (op : MetaOp) :
    (s.applyView op).2.replicator = s.replicator := by
  unfold applyView; split <;> rfl

@[simp] theorem applyView_walCursor (s : MetaStore) (op : MetaOp) :
    (s.applyView op).2.walCursor = s.walCursor := by
  unfold applyView; split <;> rfl

@[simp] theorem applyView_walBaseOffset (s : MetaStore) (op : MetaOp) :
    (s.applyView op).2.walBaseOffset = s.walBaseOffset := by
  unfold applyView; split <;> rfl

/-- The local transaction, when it does not panic: the tables accepted the operation, or rejected it and stayed. -/
theorem applyView_cases {s : MetaStore} {op : MetaOp} (h : (s.applyView op).1 ≠ .panic) :
    (∃ u, s.view.applyLocally op = .ok u ∧ (s.applyView op).1 = .ok () ∧ (s.applyView op).2.view = u) ∨
    (∃ e, s.view.applyLocally op = .err e ∧ (s.applyView op).1 = .err e ∧ (s.applyView op).2.view = s.view) := by
  unfold applyView at h ⊢
  cases hv : s.view.applyLocally op with
  | ok u => exact Or.inl ⟨u, rfl, rfl, rfl⟩
  | err e => exact Or.inr ⟨e, rfl, rfl, rfl⟩
  | panic => rw [hv] at h; exact absurd rfl h

/-- The frame is on the primary, at the cursor, and the cursor is past it. -/
structure Logged (w : World) (s : MetaStore) (frame : Bytes) (w' : World) (s' : MetaStore) : Prop where
  base_eq : s'.walBaseOffset = s.walBaseOffset
  cursor_eq : s'.walCursor = s.walCursor + frame.length
  primaryDisk_eq : s'.replicator.primaryDisk = s.replicator.primaryDisk
  backupDisk_ne : s'.replicator.backupDisk ≠ some s.replicator.primaryDisk
  disk_eq : w'.disk s.replicator.primaryDisk =
    (w.disk s.replicator.primaryDisk).writeAt (s.walBaseOffset + s.walCursor) frame

/-- **What `apply` means for the primary's log.** Either the operation is in the log, and the result is what the
    tables said to it; or the primary was lost, the store is unchanged, and only the target range was touched. -/
theorem apply_primary {env : Env} {w w' : World} {s s' : MetaStore} {op : MetaOp} {res : Res MetaStoreError Unit}
    (hne : s.replicator.backupDisk ≠ some s.replicator.primaryDisk) (h : s.apply env w op = (res, w', s'))
    (hres : res ≠ .panic) :
    (Logged w s (opFrame env.ord op) w' s' ∧
      ((∃ u, s.view.applyLocally op = .ok u ∧ res = .ok () ∧ s'.view = u) ∨
       (∃ e, s.view.applyLocally op = .err e ∧ res = .err e ∧ s'.view = s.view))) ∨
    (res = .err (.commit (.primaryUnavailable .device)) ∧ s' = s ∧
      ∃ left, left.length ≤ (opFrame env.ord op).length ∧ w'.disk s.replicator.primaryDisk =
        (w.disk s.replicator.primaryDisk).writeAt (s.walBaseOffset + s.walCursor) left) := by
  have hout := apply_outcome hne h
  generalize s.commitReport env w op = report at hout
  cases hout with
  | logged hc =>
      cases hc with
      | durable hp hb ho => exact Or.inl ⟨⟨by simp, by simp, by simp, by simpa using hne, hp⟩, applyView_cases hres⟩
  | degraded hc hepoch =>
      cases hc with
      | backupLost hp hback hleft hb ho =>
          exact Or.inl ⟨⟨by simp, by simp, by simp, by simp, hp⟩, applyView_cases hres⟩
  | epochOverflow hc => exact absurd rfl hres
  | refused hc =>
      cases hc with
      | primaryLost hleft hp ho => exact Or.inr ⟨rfl, rfl, _, hleft, hp⟩

/-- **What an `apply` that returned Ok has done**: logged the operation, and changed the tables by it. -/
theorem apply_eq_ok {env : Env} {w w' : World} {s s' : MetaStore} {op : MetaOp}
    (hne : s.replicator.backupDisk ≠ some s.replicator.primaryDisk) (h : s.apply env w op = (.ok (), w', s')) :
    Logged w s (opFrame env.ord op) w' s' ∧ s.view.applyLocally op = .ok s'.view := by
  rcases apply_primary hne h (by simp) with ⟨hlog, ⟨u, hu, -, hview⟩ | ⟨e, -, he, -⟩⟩ | ⟨he, -⟩
  · exact ⟨hlog, by rw [hview]; exact hu⟩
  · cases he
  · cases he

/-- A refused operation leaves the tables as they were, wherever it was refused. -/
theorem view_of_refused {env : Env} {w w' : World} {s s' : MetaStore} {op : MetaOp} {e : MetaStoreError}
    (hne : s.replicator.backupDisk ≠ some s.replicator.primaryDisk) (h : s.apply env w op = (.err e, w', s')) :
    s'.view = s.view := by
  rcases apply_primary hne h (by simp) with ⟨-, ⟨u, -, hu, -⟩ | ⟨e', -, -, hview⟩⟩ | ⟨-, rfl, -⟩
  · cases hu
  · exact hview
  · rfl

/-- On healthy disks, what the tables accept is accepted. -/
theorem apply_healthy_of_applyLocally (ord : IterOrder) (w : World) {s : MetaStore} {op : MetaOp} {u : View}
    (hu : s.view.applyLocally op = .ok u) :
    ∃ w' s', s.apply (Env.healthy ord) w op = (.ok (), w', s') := by
  obtain ⟨w', happly⟩ := apply_healthy ord w s op
  refine ⟨w', ((s.advance (opFrame ord op).length).applyView op).2, ?_⟩
  rw [happly]
  unfold applyView
  simp only [advance_view, hu]

/-- On healthy disks, what the tables reject is rejected, and in the log all the same. -/
theorem apply_healthy_of_rejected (ord : IterOrder) (w : World) {s : MetaStore} {op : MetaOp} {e : MetaStoreError}
    (he : s.view.applyLocally op = .err e) : ∃ w' s', s.apply (Env.healthy ord) w op = (.err e, w', s') := by
  obtain ⟨w', happly⟩ := apply_healthy ord w s op
  refine ⟨w', ((s.advance (opFrame ord op).length).applyView op).2, ?_⟩
  rw [happly]
  unfold applyView
  simp only [advance_view, he]

/-- What healthy disks refuse, the tables have refused. -/
theorem applyLocally_of_refused {ord : IterOrder} {w w' : World} {s s' : MetaStore} {op : MetaOp} {e : MetaStoreError}
    (h : s.apply (Env.healthy ord) w op = (.err e, w', s')) : s.view.applyLocally op = .err e := by
  cases hview : s.view.applyLocally op with
  | ok u =>
      obtain ⟨w₂, s₂, hok⟩ := apply_healthy_of_applyLocally ord w hview
      cases h.symm.trans hok
  | err e' =>
      obtain ⟨w₂, s₂, herr⟩ := apply_healthy_of_rejected ord w hview
      obtain rfl := Res.err.inj (Prod.mk.inj (h.symm.trans herr)).1
      rfl
  | panic =>
      obtain ⟨w₂, hpanic⟩ := apply_healthy ord w s op
      have hres := (Prod.mk.inj (h.symm.trans hpanic)).1
      unfold applyView at hres
      simp only [advance_view, hview] at hres
      cases hres

/-- **What `apply` means for every disk**: it is untouched, or written only inside the frame's range. -/
theorem apply_disk {env : Env} {w w' : World} {s s' : MetaStore} {op : MetaOp} {res : Res MetaStoreError Unit}
    (hne : s.replicator.backupDisk ≠ some s.replicator.primaryDisk) (h : s.apply env w op = (res, w', s'))
    (r : DiskRef) : w'.disk r = w.disk r ∨ ∃ buf, buf.length ≤ (opFrame env.ord op).length ∧
      w'.disk r = (w.disk r).writeAt (s.walBaseOffset + s.walCursor) buf := by
  have hout := apply_outcome hne h
  generalize s.commitReport env w op = report at hout
  cases hout with
  | logged hc => exact hc.disk r
  | degraded hc hepoch => exact hc.disk r
  | epochOverflow hc => exact hc.disk r
  | refused hc => exact hc.disk r

/-- Where the log lives, and on which primary, never changes; a backup is only ever dropped. -/
theorem apply_layout {env : Env} {w w' : World} {s s' : MetaStore} {op : MetaOp} {res : Res MetaStoreError Unit}
    (hne : s.replicator.backupDisk ≠ some s.replicator.primaryDisk) (h : s.apply env w op = (res, w', s')) :
    s'.walBaseOffset = s.walBaseOffset ∧ s'.replicator.primaryDisk = s.replicator.primaryDisk ∧
      s'.replicator.backupDisk ≠ some s'.replicator.primaryDisk := by
  have hout := apply_outcome hne h
  generalize s.commitReport env w op = report at hout
  cases hout with
  | logged hc => exact ⟨by simp, by simp, by simpa using hne⟩
  | degraded hc hepoch => exact ⟨by simp, by simp, by simp⟩
  | epochOverflow hc => exact ⟨rfl, rfl, hne⟩
  | refused hc => exact ⟨rfl, rfl, hne⟩

/-- An operation whose frame recovery can read is decoded to itself. -/
theorem fits_of_frame {ord : IterOrder} {op : MetaOp} {c : Nat}
    (h : c + (opFrame ord op).length ≤ Wal.walCapacityBytes) : op.Fits := by
  refine MetaOp.fits_of_length ord ?_
  have hlen : (opFrame ord op).length = Wal.headerLen + (encodeOp ord op).length := Wal.length_buildFrame _
  have hlt := Wal.walCapacityBytes_lt
  omega

/-- As long as the primary did not fail, every operation is logged, whatever the tables make of it. -/
theorem logged_of_report {env : Env} {w w' : World} {s s' : MetaStore} {op : MetaOp} {res : Res MetaStoreError Unit}
    (hne : s.replicator.backupDisk ≠ some s.replicator.primaryDisk) (h : s.apply env w op = (res, w', s'))
    (hres : res ≠ .panic) (hup : ∀ e, s.commitReport env w op ≠ .error (.primaryUnavailable e)) :
    Logged w s (opFrame env.ord op) w' s' := by
  have hout := apply_outcome hne h
  generalize s.commitReport env w op = report at hout hup
  cases hout with
  | logged hc =>
      cases hc with
      | durable hp hb ho => exact ⟨by simp, by simp, by simp, by simpa using hne, hp⟩
  | degraded hc hepoch =>
      cases hc with
      | backupLost hp hback hleft hb ho => exact ⟨by simp, by simp, by simp, by simp, hp⟩
  | epochOverflow hc => exact absurd rfl hres
  | refused hc => exact absurd rfl (hup _)

/-- On healthy disks every operation is logged. -/
theorem logged_of_healthy {ord : IterOrder} {w w' : World} {s s' : MetaStore} {op : MetaOp}
    {res : Res MetaStoreError Unit} (hne : s.replicator.backupDisk ≠ some s.replicator.primaryDisk)
    (h : s.apply (Env.healthy ord) w op = (res, w', s')) (hres : res ≠ .panic) :
    Logged w s (opFrame ord op) w' s' := by
  have hup : ∀ e, s.commitReport (Env.healthy ord) w op ≠ .error (.primaryUnavailable e) := by
    rw [commitReport_healthy]
    simp
  have hlog := logged_of_report hne h hres hup
  exact hlog

end MetaStore

end Tartine
