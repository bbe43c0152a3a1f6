import Tartine.Meta.Recovery

/-!
# `Meta.Durability` — no acknowledged operation is lost on a member of the group

Writes and syncs may fail at any point, on either metadata disk, and leave anything inside the range they were
meant for. What holds throughout: below the cursor, the primary and (until it is fenced) the backup carry exactly
the operations acknowledged so far. A failed write strikes at or past the cursor, so it can only leave garbage
*behind* the acknowledged log, where the next frame is written over it.
-/

namespace Tartine.MetaStore

open Basis Codec

/-- The acknowledged log after one more `apply`: its encoding is added unless the commit lost the primary. -/
def acknowledged (env : Env) (w : World) (s : MetaStore) (op : MetaOp) (log : List Bytes) : List Bytes :=
  match s.commitReport env w op with
  | .error (.primaryUnavailable _) => log
  | _                              => log ++ [encodeOp env.ord op]

/-- Runs of `apply` from zero-filled disks, under any failures, with the acknowledged operations in order. Frames
    stay within the log's capacity; a panic ends the process, and with it the run. -/
inductive FaultyRun : World → MetaStore → List Bytes → Prop where
  | fresh {w s group primary backup} (hzero : ∀ r, r = primary ∨ backup = some r → ∀ i, (w.disk r).bytes i = 0)
      (hne : backup ≠ some primary) (hgroup : group.backup.isSome = backup.isSome)
      (h : openStore w group primary backup = .ok s) : FaultyRun w s []
  | apply {w s log res w' s'} (env : Env) (op : MetaOp) (hrun : FaultyRun w s log)
      (hcap : s.walCursor + (opFrame env.ord op).length ≤ Wal.walCapacityBytes)
      (h : s.apply env w op = (res, w', s')) (hres : res ≠ .panic) :
      FaultyRun w' s' (s.acknowledged env w op log)

/-- Below the cursor, every current member of the group carries the acknowledged log. -/
structure Durable (w : World) (s : MetaStore) (log : List Bytes) : Prop where
  base_eq : s.walBaseOffset = 0
  backupDisk_ne : s.replicator.backupDisk ≠ some s.replicator.primaryDisk
  member_iff : s.group.backup.isSome = s.replicator.backupDisk.isSome
  primary : Chain (Wal.probe (w.disk s.replicator.primaryDisk) 0) 0 log s.walCursor
  backup : ∀ b, s.replicator.backupDisk = some b → Chain (Wal.probe (w.disk b) 0) 0 log s.walCursor

variable {w w' : World} {s s' : MetaStore} {log : List Bytes}

theorem durable_fresh {group : MetaGroup} {primary : DiskRef} {backup : Option DiskRef}
    (hzero : ∀ r, r = primary ∨ backup = some r → ∀ i, (w.disk r).bytes i = 0) (hne : backup ≠ some primary)
    (hgroup : group.backup.isSome = backup.isSome) (h : openStore w group primary backup = .ok s) :
    Durable w s [] := by
  rw [openStore_of_carries group backup (v := View.empty) (Wal.carries_nil (hzero primary (Or.inl rfl))) rfl] at h
  obtain rfl := Res.ok.inj h
  exact ⟨rfl, hne, hgroup, .nil, fun _ _ => .nil⟩

/-- **Step lemma.** Whatever fails during an `apply`, the members that remain carry the acknowledged log; and a
    backup leaves the group only under a larger epoch. -/
theorem Durable.apply {env : Env} {op : MetaOp} {res : Res MetaStoreError Unit} (hd : Durable w s log)
    (hcap : s.walCursor + (opFrame env.ord op).length ≤ Wal.walCapacityBytes)
    (h : s.apply env w op = (res, w', s')) (hres : res ≠ .panic) :
    Durable w' s' (s.acknowledged env w op log) ∧
      (s'.group.backup ≠ s.group.backup → s.group.epoch < s'.group.epoch) := by
  have hout := apply_outcome hd.backupDisk_ne h
  unfold acknowledged
  generalize s.commitReport env w op = report at hout ⊢
  have hoff : s.walBaseOffset + s.walCursor = 0 + s.walCursor := by rw [hd.base_eq]
  cases hout with
  | logged hc =>
      rw [hoff] at hc
      cases hc with
      | durable hp hb ho =>
          refine ⟨⟨?_, ?_, ?_, ?_, ?_⟩, fun hchange => absurd ?_ hchange⟩
          · simpa using hd.base_eq
          · simpa using hd.backupDisk_ne
          · simpa [group] using hd.member_iff
          · simp only [applyView_replicator, applyView_walCursor, advance_replicator, advance_walCursor, hp]
            exact Wal.chain_snoc hd.primary hcap
          · intro b hback
            simp only [applyView_replicator, applyView_walCursor, advance_replicator, advance_walCursor] at hback ⊢
            rw [hb b hback]
            exact Wal.chain_snoc (hd.backup b hback) hcap
          · simp [group]
  | degraded hc hepoch =>
      rw [hoff] at hc
      cases hc with
      | backupLost hp hback hleft hb ho =>
          -- the backup is out of the group: nothing is claimed about it any more
          refine ⟨⟨?_, ?_, ?_, ?_, ?_⟩, fun _ => ?_⟩
          · simpa using hd.base_eq
          · simp
          · simp [group]
          · simp only [applyView_replicator, applyView_walCursor, advance_replicator, advance_walCursor,
              fenced_primaryDisk, fenced_walCursor, hp]
            exact Wal.chain_snoc hd.primary hcap
          · intro b hback'
            simp at hback'
          · rw [UInt64.lt_iff_toNat_lt]
            simp only [group, applyView_replicator, advance_replicator, fenced_group, hepoch]
            omega
  | epochOverflow hc => exact absurd rfl hres
  | refused hc =>
      rw [hoff] at hc
      cases hc with
      | primaryLost hleft hp ho =>
          -- the garbage starts at the cursor, so the log below it is still there
          refine ⟨⟨hd.base_eq, hd.backupDisk_ne, hd.member_iff, ?_, ?_⟩, fun hchange => absurd rfl hchange⟩
          · rw [hp]
            exact Wal.chain_writeAt hd.primary (Nat.le_refl _)
          · intro b hback
            have hbp : b ≠ s.replicator.primaryDisk := by
              rintro rfl
              exact hd.backupDisk_ne hback
            rw [ho b hbp]
            exact hd.backup b hback

/-- **Run lemma.** -/
theorem FaultyRun.durable (hrun : FaultyRun w s log) : Durable w s log := by
  induction hrun with
  | fresh hzero hne hgroup h => exact durable_fresh hzero hne hgroup h
  | apply env op hrun hcap h hres ih => exact (ih.apply hcap h hres).1

/-- **No acknowledged operation is lost on a current member of the group**, whatever failed: recovery from the
    primary starts with the acknowledged log, so does recovery from the backup while the group names one, and the
    group's backup only ever changes under a larger epoch. -/
theorem acknowledged_survives (hrun : FaultyRun w s log) :
    log <+: (Wal.scan (w.disk s.replicator.primaryDisk) 0).entries ∧
    (s.group.backup.isSome → ∃ b, s.replicator.backupDisk = some b ∧ log <+: (Wal.scan (w.disk b) 0).entries) ∧
    ∀ env op res w' s', s.walCursor + (opFrame env.ord op).length ≤ Wal.walCapacityBytes →
      s.apply env w op = (res, w', s') → res ≠ .panic → s'.group.backup ≠ s.group.backup →
        s.group.epoch < s'.group.epoch := by
  have hd := hrun.durable
  refine ⟨prefix_scan Wal.probe_bounded hd.primary, ?_, ?_⟩
  · intro hsome
    rw [hd.member_iff] at hsome
    obtain ⟨b, hb⟩ := Option.isSome_iff_exists.mp hsome
    exact ⟨b, hb, prefix_scan Wal.probe_bounded (hd.backup b hb)⟩
  · intro env op res w' s' hcap h hres
    exact (hd.apply hcap h hres).2

/-- A group of two, and a device whose third call (the write to the backup) fails half-way. -/
def pairGroup : MetaGroup := ⟨⟨1⟩, some ⟨2⟩, 0⟩

def thirdCallFails : Env := ⟨fun k => if k = 2 then .fail [0x31, 0x4c] else .ok, listOrder⟩

/-- The theorem at a run that loses its backup. -/
theorem acknowledged_survives_lostBackup : ∃ w s,
    FaultyRun w s [encodeOp listOrder (.link 1 "a" 2)] ∧ s.group.backup = none ∧ s.group.epoch = 1 ∧
      [encodeOp listOrder (.link 1 "a" 2)] <+: (Wal.scan (w.disk s.replicator.primaryDisk) 0).entries := by
  have hzero : ∀ i, ((World.blank 4096).disk 0).bytes i = 0 := fun _ => rfl
  have hfresh := FaultyRun.fresh (s := ⟨⟨pairGroup, 0, some 1⟩, 0, 0, View.empty⟩) (w := World.blank 4096)
    (fun _ _ _ => rfl) (by decide) (by decide) (openStore_of_carries pairGroup (some 1) (Wal.carries_nil hzero) rfl)
  have hcap : 0 + (opFrame listOrder (.link 1 "a" 2)).length ≤ Wal.walCapacityBytes := by decide +kernel
  have hrun := FaultyRun.apply thirdCallFails (.link 1 "a" 2) hfresh hcap rfl (by simp)
  exact ⟨_, _, hrun, rfl, rfl, (acknowledged_survives hrun).1⟩

end Tartine.MetaStore
