import Tartine.Meta.Store

/-!
# `Meta.Replay` — two executions of the same operations build the same tables

The live store applies an operation as the caller passed it; recovery applies what it decodes from the log. The two
agree because decoding inverts encoding, and because the tables an operation produces depend on the tables alone:
the inode counter, which `alloc_inode` moves without logging anything, is only ever raised.

* `applyLocally_setNext` — the counter never influences the tables;
* `replay_snoc`, `replayEntry_encodeOp` — one more log entry is one more operation;
* `nextInode_le_applyLocally`, `created_lt_applyLocally` — the counter never falls, and a creation puts it past the new
  number.
-/

namespace Tartine

open Basis Codec Kcore

namespace View

/-- The counter after an operation. -/
def nextAfter (n : InodeId) : MetaOp → InodeId
  | .createInode rec => max n (rec.inode + 1)
  | _                => n

/-- The view with another value of the counter. -/
def setNext (v : View) (n : InodeId) : View := { v with nextInode := n }

@[simp] theorem setNext_inodes (v : View) (n : InodeId) : (v.setNext n).inodes = v.inodes := rfl
@[simp] theorem setNext_dirs (v : View) (n : InodeId) : (v.setNext n).dirs = v.dirs := rfl
@[simp] theorem setNext_nextInode (v : View) (n : InodeId) : (v.setNext n).nextInode = n := rfl
@[simp] theorem setNext_self (v : View) : v.setNext v.nextInode = v := rfl
@[simp] theorem readInode_setNext (v : View) (n id : InodeId) : (v.setNext n).readInode id = v.readInode id := rfl
@[simp] theorem writeInode_setNext (v : View) (n : InodeId) (rec : InodeRecord) :
    (v.setNext n).writeInode rec = (v.writeInode rec).setNext n := rfl

/-- **The counter never influences the tables**, nor whether an operation is accepted. -/
theorem applyLocally_setNext (v : View) (n : InodeId) (op : MetaOp) :
    (v.setNext n).applyLocally op = (v.applyLocally op >>= fun u => .ok (u.setNext (nextAfter n op))) := by
  cases op with
  | createInode rec =>
      simp only [applyLocally]
      cases hadd : (Res.checkedAdd rec.inode 1 : Res MetaStoreError UInt64) with
      | ok next =>
          have hnext : next = rec.inode + 1 := by
            unfold Res.checkedAdd at hadd
            split at hadd
            · cases hadd; rfl
            · cases hadd
          subst hnext
          rfl
      | err e => rfl
      | panic => rfl
  | link parent name child => rfl
  | unlink parent name => rfl
  | appendChunk inode chunk =>
      simp only [applyLocally, readInode_setNext]
      cases v.readInode inode with
      | ok rec =>
          simp only [Res.ok_bind]
          cases rec.data with
          | chunkLog chunks =>
              cases (Res.checkedAdd rec.size chunk.len.toUInt64 : Res MetaStoreError UInt64) <;> rfl
          | extents xs => rfl
      | err e => rfl
      | panic => rfl
  | beginConvert inode =>
      simp only [applyLocally, readInode_setNext]
      cases v.readInode inode with
      | ok rec =>
          simp only [Res.ok_bind]
          cases stepMode tartineBeginConvert _ rec.mode <;> rfl
      | err e => rfl
      | panic => rfl
  | completeConvert inode extents =>
      simp only [applyLocally, readInode_setNext]
      cases v.readInode inode with
      | ok rec =>
          simp only [Res.ok_bind]
          cases stepMode tartineCompleteConvert _ rec.mode <;> rfl
      | err e => rfl
      | panic => rfl
  | setRedundancyScheme inode scheme =>
      simp only [applyLocally, readInode_setNext]
      cases v.readInode inode <;> rfl
  | updateExtents inode extents =>
      simp only [applyLocally, readInode_setNext]
      cases v.readInode inode with
      | ok rec =>
          simp only [Res.ok_bind]
          split
          · rfl
          · cases extentEnds extents <;> rfl
      | err e => rfl
      | panic => rfl
  | poolMapChange pm => rfl
  | metaGroupChange mg => rfl

/-- The counter after an accepted operation. -/
theorem applyLocally_nextInode {v u : View} {op : MetaOp} (h : v.applyLocally op = .ok u) :
    u.nextInode = nextAfter v.nextInode op := by
  have hself := applyLocally_setNext v v.nextInode op
  rw [setNext_self, h, Res.ok_bind] at hself
  have heq : u = u.setNext (nextAfter v.nextInode op) := Res.ok.inj hself
  rw [heq, setNext_nextInode]

/-- Same tables, whatever the counters. -/
def SameTables (v u : View) : Prop := v.inodes = u.inodes ∧ v.dirs = u.dirs

theorem SameTables.eq_setNext {v u : View} (h : v.SameTables u) : u = v.setNext u.nextInode := by
  obtain ⟨hi, hd⟩ := h
  cases u
  simp only [setNext] at hi hd ⊢
  rw [hi, hd]

/-- **One operation on same tables**: accepted by one exactly as by the other, with same tables after. -/
theorem SameTables.applyLocally {v u : View} (h : v.SameTables u) (op : MetaOp) :
    (∃ v' u', v.applyLocally op = .ok v' ∧ u.applyLocally op = .ok u' ∧ v'.SameTables u') ∨
    (∃ e, v.applyLocally op = .err e ∧ u.applyLocally op = .err e) ∨
    (v.applyLocally op = .panic ∧ u.applyLocally op = .panic) := by
  rw [h.eq_setNext, applyLocally_setNext]
  cases hv : v.applyLocally op with
  | ok v' => exact Or.inl ⟨v', _, rfl, rfl, rfl, rfl⟩
  | err e => exact Or.inr (Or.inl ⟨e, rfl, rfl⟩)
  | panic => exact Or.inr (Or.inr ⟨rfl, rfl⟩)

/-! ## Replaying a log -/

/-- A replayed entry is the operation that was logged. -/
theorem replayEntry_encodeOp (v : View) (ord : IterOrder) {op : MetaOp} (h : op.Fits) :
    v.replayEntry (encodeOp ord op) = v.applyLocally op := by
  unfold replayEntry
  rw [decodeOp_encodeOp ord h]

theorem replay_append (v : View) (ps qs : List Bytes) :
    v.replay (ps ++ qs) = (v.replay ps >>= fun u => u.replay qs) := List.foldlM_append

theorem replay_snoc (v : View) (ps : List Bytes) (p : Bytes) :
    v.replay (ps ++ [p]) = (v.replay ps >>= fun u => u.replayEntry p) := by
  rw [replay_append]
  congr 1
  funext u
  show (u.replayEntry p >>= fun u => pure u) = _
  rw [bind_pure]

/-- The counter only grows. -/
theorem nextInode_le_applyLocally {v u : View} {op : MetaOp} (h : v.applyLocally op = .ok u) :
    v.nextInode.toNat ≤ u.nextInode.toNat := by
  rw [applyLocally_nextInode h]
  cases op with
  | createInode rec => show _ ≤ (max v.nextInode (rec.inode + 1)).toNat; rw [UInt64.toNat_max]; omega
  | _ => exact Nat.le_refl _

/-- A created inode's number is below the counter. -/
theorem created_lt_applyLocally {v u : View} {rec : InodeRecord} (h : v.applyLocally (.createInode rec) = .ok u) :
    rec.inode.toNat < u.nextInode.toNat := by
  simp only [applyLocally] at h
  obtain ⟨next, hadd, hu⟩ := Res.bind_eq_ok.mp h
  have hnext := Res.checkedAdd_eq_ok.mp hadd
  obtain rfl := Res.ok.inj hu
  show rec.inode.toNat < (max v.nextInode next).toNat
  rw [UInt64.toNat_max, hnext]
  have : (1 : UInt64).toNat = 1 := rfl
  omega

end View

end Tartine
