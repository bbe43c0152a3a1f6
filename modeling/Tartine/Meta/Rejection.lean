import Tartine.Meta.Recovery

/-!
# `Meta.Rejection` — what a rejected operation leaves behind

`apply` writes an operation to the log before the tables have seen it, and `open` stops at the first logged operation
the tables reject. So a rejected operation is never harmless: while it fits the log, every later `open` fails on it
(the tables it meets on replay are the ones that rejected it live); and once the log is full it pushes the cursor past
what recovery reads, so that every operation accepted after it is lost.

* `Follows` — the log below the cursor, if it replays at all, replays to the live tables;
* `rejection_never_harmless` — so no rejected operation leaves the durable state intact.
-/

namespace Tartine.MetaStore

open Basis Codec

/-- Stores reachable from a zero-filled primary by any operations, accepted or rejected, inode allocations and
    reopens, whatever the disks do. A panic ends the process. -/
inductive Reachable (primary : DiskRef) : World → MetaStore → Prop where
  | fresh {w s group backup} (hzero : ∀ i, (w.disk primary).bytes i = 0) (hne : backup ≠ some primary)
      (h : openStore w group primary backup = .ok s) : Reachable primary w s
  | apply {w s res w' s'} (env : Env) (op : MetaOp) (hrun : Reachable primary w s)
      (h : s.apply env w op = (res, w', s')) (hres : res ≠ .panic) : Reachable primary w' s'
  | alloc {w s id s'} (hrun : Reachable primary w s) (h : s.allocInode = .ok (id, s')) : Reachable primary w s'
  | reopen {w s group backup s'} (hrun : Reachable primary w s) (hne : backup ≠ some primary)
      (h : openStore w group primary backup = .ok s') : Reachable primary w s'

/-- The log below the cursor, as long as recovery can read that far, replays to the live tables if at all. -/
structure Follows (primary : DiskRef) (w : World) (s : MetaStore) : Prop where
  primaryDisk_eq : s.replicator.primaryDisk = primary
  backupDisk_ne : s.replicator.backupDisk ≠ some primary
  base_eq : s.walBaseOffset = 0
  log : s.walCursor ≤ Wal.walCapacityBytes → ∃ ps, Chain (Wal.probe (w.disk primary) 0) 0 ps s.walCursor ∧
    ∀ v, View.empty.replay ps = .ok v → v.SameTables s.view

variable {primary : DiskRef} {w w' : World} {s s' : MetaStore} {op : MetaOp}

/-- What a successful open has read. -/
theorem openStore_eq_ok {group : MetaGroup} {backup : Option DiskRef}
    (h : openStore w group primary backup = .ok s) :
    View.empty.replay (Wal.scan (w.disk primary) 0).entries = .ok s.view ∧
      s = { replicator := ⟨group, primary, backup⟩, walBaseOffset := 0,
            walCursor := (Wal.scan (w.disk primary) 0).resumeAt, view := s.view } := by
  obtain ⟨v, hv, hs⟩ := Res.bind_eq_ok.mp h
  obtain rfl := Res.ok.inj hs
  exact ⟨hv, rfl⟩

/-- Any disk that can be opened is followed by the store opened on it. -/
theorem follows_open {group : MetaGroup} {backup : Option DiskRef} (hne : backup ≠ some primary)
    (h : openStore w group primary backup = .ok s) : Follows primary w s := by
  obtain ⟨hreplay, hs⟩ := openStore_eq_ok h
  rw [hs]
  refine ⟨rfl, hne, rfl, fun _ => ⟨_, scanFrom_isChain _ _ _, ?_⟩⟩
  intro v hv
  obtain rfl := Res.ok.inj (hv.symm.trans hreplay)
  exact ⟨rfl, rfl⟩

/-- **Step lemma.** -/
theorem Follows.apply {env : Env} {res : Res MetaStoreError Unit} (hf : Follows primary w s)
    (h : s.apply env w op = (res, w', s')) (hres : res ≠ .panic) : Follows primary w' s' := by
  have hprim := hf.primaryDisk_eq
  have hbase := hf.base_eq
  rcases apply_primary (by rw [hprim]; exact hf.backupDisk_ne) h hres with ⟨hlog, hview⟩ | ⟨-, rfl, left, -, hdisk⟩
  · -- logged: one more entry, which the live tables took or refused
    refine ⟨hlog.primaryDisk_eq.trans hprim, by rw [← hprim]; exact hlog.backupDisk_ne,
      hlog.base_eq.trans hbase, ?_⟩
    rw [hlog.cursor_eq]
    intro hcap
    obtain ⟨ps, hchain, hreplay⟩ := hf.log (by omega)
    refine ⟨ps ++ [encodeOp env.ord op], ?_, ?_⟩
    · have hdisk := hlog.disk_eq
      rw [hprim, hbase] at hdisk
      rw [hdisk]
      exact Wal.chain_snoc hchain hcap
    · intro v' hv'
      rw [View.replay_snoc] at hv'
      obtain ⟨v, hv, hentry⟩ := Res.bind_eq_ok.mp hv'
      rw [View.replayEntry_encodeOp _ _ (fits_of_frame hcap)] at hentry
      -- the live tables said the same to the operation as the replayed ones
      rcases (hreplay v hv).applyLocally op with ⟨v₁, u, h1, h2, hsame⟩ | ⟨e, h1, -⟩ | ⟨h1, -⟩
      · obtain rfl := Res.ok.inj (hentry.symm.trans h1)
        rcases hview with ⟨u', hu', -, rfl⟩ | ⟨e, he, -⟩
        · obtain rfl := Res.ok.inj (hu'.symm.trans h2)
          exact hsame
        · rw [h2] at he; cases he
      · rw [hentry] at h1; cases h1
      · rw [hentry] at h1; cases h1
  · -- the primary was lost: whatever it left behind is past the log
    refine ⟨hprim, hf.backupDisk_ne, hbase, fun hcap => ?_⟩
    obtain ⟨ps, hchain, hreplay⟩ := hf.log hcap
    refine ⟨ps, ?_, hreplay⟩
    rw [hprim, hbase] at hdisk
    rw [hdisk]
    exact Wal.chain_writeAt hchain (Nat.le_refl _)

/-- **Run lemma.** -/
theorem Reachable.follows (hrun : Reachable primary w s) : Follows primary w s := by
  induction hrun with
  | fresh hzero hne h => exact follows_open hne h
  | apply env op hrun h hres ih => exact ih.apply h hres
  | alloc hrun h ih =>
      obtain ⟨next, -, hs⟩ := Res.bind_eq_ok.mp h
      obtain ⟨-, rfl⟩ := Prod.mk.inj (Res.ok.inj hs)
      exact ⟨ih.primaryDisk_eq, ih.backupDisk_ne, ih.base_eq, ih.log⟩
  | reopen hrun hne h ih => exact follows_open hne h

/-! ## Leaving the durable state intact -/

/-- Opening the disks succeeds, with this view. -/
def Recovers (w : World) (primary : DiskRef) (v : View) : Prop :=
  ∀ group backup, ∃ s, openStore w group primary backup = .ok s ∧ s.view = v

/-- Further operations, each accepted, on healthy disks. -/
inductive Accepted : World → MetaStore → List MetaOp → World → MetaStore → Prop where
  | nil {w : World} {s : MetaStore} : Accepted w s [] w s
  | cons {w w' w'' : World} {s s' s'' : MetaStore} {ord : IterOrder} {op : MetaOp} {ops : List MetaOp}
      (h : s.apply (Env.healthy ord) w op = (.ok (), w', s'))
      (htail : Accepted w' s' ops w'' s'') : Accepted w s (op :: ops) w'' s''

/-- The durable state of `w` is intact in `w'`, with the store `s'` running on it: an open recovers what an open of
    `w` would have recovered, and after any further accepted operations, that state with them applied. -/
def LeavesIntact (primary : DiskRef) (w w' : World) (s' : MetaStore) : Prop :=
  ∃ v, Recovers w primary v ∧ ∀ ops w'' s'', Accepted w' s' ops w'' s'' →
    ∃ v', Recovers w'' primary v' ∧ ops.foldlM View.applyLocally v = .ok v'

theorem Recovers.replay_eq {v : View} (h : Recovers w primary v) :
    View.empty.replay (Wal.scan (w.disk primary) 0).entries = .ok v := by
  obtain ⟨s, hopen, rfl⟩ := h ⟨⟨0⟩, none, 0⟩ none
  exact (openStore_eq_ok hopen).1

/-- A rejected operation that recovery can read makes every open fail. -/
theorem not_recovers_of_rejected {ord : IterOrder} {e : MetaStoreError} {v : View} (hf : Follows primary w s)
    (hlog : Logged w s (opFrame ord op) w' s') (hrej : s.view.applyLocally op = .err e)
    (hcap : s.walCursor + (opFrame ord op).length ≤ Wal.walCapacityBytes) : ¬Recovers w' primary v := by
  intro hrec
  obtain ⟨ps, hchain, hreplay⟩ := hf.log (by omega)
  have hdisk := hlog.disk_eq
  rw [hf.primaryDisk_eq, hf.base_eq] at hdisk
  have hchain' : Chain (Wal.probe (w'.disk primary) 0) 0 (ps ++ [encodeOp ord op])
      (s.walCursor + (opFrame ord op).length) := by
    rw [hdisk]
    exact Wal.chain_snoc hchain hcap
  obtain ⟨rest, hrest⟩ := prefix_scan Wal.probe_bounded hchain'
  -- a successful replay would have taken the rejected entry on its way
  have hok : View.empty.replay ((ps ++ [encodeOp ord op]) ++ rest) = .ok v := by
    rw [hrest]; exact hrec.replay_eq
  rw [View.replay_append, View.replay_snoc] at hok
  obtain ⟨v₂, hv₂, -⟩ := Res.bind_eq_ok.mp hok
  obtain ⟨v₁, hv₁, hentry⟩ := Res.bind_eq_ok.mp hv₂
  rw [View.replayEntry_encodeOp _ _ (fits_of_frame hcap)] at hentry
  rcases (hreplay v₁ hv₁).applyLocally op with ⟨_, u, -, h2, -⟩ | ⟨_, h1, -⟩ | ⟨h1, -⟩
  · rw [hrej] at h2; cases h2
  · rw [hentry] at h1; cases h1
  · rw [hentry] at h1; cases h1

/-- Once the cursor is past the log's capacity, an operation changes nothing that recovery reads. -/
theorem scan_eq_of_past_capacity {env : Env} (hprim : s.replicator.primaryDisk = primary)
    (hne : s.replicator.backupDisk ≠ some primary) (hbase : s.walBaseOffset = 0)
    (hcur : Wal.walCapacityBytes ≤ s.walCursor) (hlen : Wal.walCapacityBytes ≤ (w.disk primary).len)
    (h : s.apply env w op = (.ok (), w', s')) : Wal.scan (w'.disk primary) 0 = Wal.scan (w.disk primary) 0 := by
  have hlog := (apply_eq_ok (by rw [hprim]; exact hne) h).1
  have hdisk := hlog.disk_eq
  rw [hprim, hbase, Nat.zero_add] at hdisk
  refine Wal.scan_congr ?_ hlen ?_
  · rw [hdisk]
    exact Nat.le_trans hlen (FileDisk.len_le_writeAt _ _ _)
  · intro i hi
    rw [hdisk, FileDisk.writeAt_bytes, patch_of_not_mem (by omega)]

/-- **What an `apply` that returned `InvalidOp` has done**: logged the operation the tables reject. -/
theorem apply_eq_invalidOp {env : Env} {msg : String}
    (hne : s.replicator.backupDisk ≠ some s.replicator.primaryDisk)
    (h : s.apply env w op = (.err (.invalidOp msg), w', s')) :
    Logged w s (opFrame env.ord op) w' s' ∧ s.view.applyLocally op = .err (.invalidOp msg) := by
  rcases apply_primary hne h (by simp) with ⟨hlog, ⟨u, -, hu, -⟩ | ⟨e, he, heq, -⟩⟩ | ⟨heq, -⟩
  · cases hu
  · exact ⟨hlog, by rw [he, Res.err.inj heq]⟩
  · cases heq

/-- **No rejected operation leaves the durable state intact.** In every reachable store, whenever `apply` returns
    `InvalidOp`, a later open fails, or it loses an operation accepted since. -/
theorem rejection_never_harmless {env : Env} {msg : String} (hrun : Reachable primary w s)
    (h : s.apply env w op = (.err (.invalidOp msg), w', s')) : ¬LeavesIntact primary w w' s' := by
  have hf := hrun.follows
  obtain ⟨hlog, hrej⟩ := apply_eq_invalidOp (by rw [hf.primaryDisk_eq]; exact hf.backupDisk_ne) h
  rintro ⟨v, -, hall⟩
  obtain ⟨v₀, hrec, hv₀⟩ := hall [] w' s' .nil
  obtain rfl : v = v₀ := Res.ok.inj hv₀
  by_cases hcap : s.walCursor + (opFrame env.ord op).length ≤ Wal.walCapacityBytes
  · exact not_recovers_of_rejected hf hlog hrej hcap hrec
  · -- link a name to a child it does not have: accepted, but written where recovery never looks
    obtain ⟨child, hchild⟩ : ∃ child : InodeId, v.dirs[View.dirKey 0 ""]? ≠ some child := by
      by_cases h0 : v.dirs[View.dirKey 0 ""]? = some 0
      · exact ⟨1, by rw [h0]; decide⟩
      · exact ⟨0, h0⟩
    obtain ⟨w'', s'', hlink⟩ := apply_healthy_of_applyLocally env.ord w' (s := s')
      (show s'.view.applyLocally (.link 0 "" child) = .ok _ from rfl)
    have hprim' := hlog.primaryDisk_eq.trans hf.primaryDisk_eq
    have hne' : s'.replicator.backupDisk ≠ some primary := by
      rw [← hf.primaryDisk_eq]; exact hlog.backupDisk_ne
    have hlen : Wal.walCapacityBytes ≤ (w'.disk primary).len := by
      have hdisk := hlog.disk_eq
      rw [hf.primaryDisk_eq] at hdisk
      rw [hdisk]
      rcases FileDisk.writeAt_end_le (w.disk primary) (s.walBaseOffset + s.walCursor) (opFrame env.ord op) with
        hnil | hend
      · have hpos : (opFrame env.ord op).length = Wal.headerLen + _ := Wal.length_buildFrame _
        rw [hnil] at hpos
        simp [Wal.headerLen] at hpos
        omega
      · omega
    obtain ⟨v'', hrec'', hv''⟩ := hall [.link 0 "" child] w'' s'' (.cons hlink .nil)
    have hscan := scan_eq_of_past_capacity hprim' hne' (hlog.base_eq.trans hf.base_eq)
      (by rw [hlog.cursor_eq]; omega) hlen hlink
    have hsame : v'' = v := by
      have h1 := hrec''.replay_eq
      rw [hscan, hrec.replay_eq] at h1
      exact (Res.ok.inj h1).symm
    have hdirs : { v with dirs := v.dirs.insert (View.dirKey 0 "") child } = v'' := Res.ok.inj hv''
    rw [hsame] at hdirs
    refine hchild ?_
    rw [← congrArg View.dirs hdirs]
    exact Std.ExtTreeMap.getElem?_insert_self

/-- What becomes of a healthy log: after a rejection, the next open fails with the very same error. -/
theorem Tracks.open_fails_after_rejection (env : Env) (op : MetaOp) {msg : String} {ops : List MetaOp} {total : Nat}
    {ps : List Bytes} {v : View} (ht : Tracks primary w s ops total ps v)
    (hcap : total + (opFrame env.ord op).length ≤ Wal.walCapacityBytes)
    (h : s.apply env w op = (.err (.invalidOp msg), w', s')) (group : MetaGroup) (backup : Option DiskRef) :
    openStore w' group primary backup = .err (.invalidOp msg) := by
  obtain ⟨hlog, hrej⟩ := apply_eq_invalidOp (by rw [ht.primaryDisk_eq]; exact ht.backupDisk_ne) h
  have hdisk := hlog.disk_eq
  rw [ht.primaryDisk_eq, ht.base_eq, ht.cursor_eq, Nat.zero_add] at hdisk
  have hc : Wal.Carries (w'.disk primary) (ps ++ [encodeOp env.ord op]) (total + (opFrame env.ord op).length) := by
    rw [hdisk]
    exact ht.carries.snoc hcap
  have hreplay : v.applyLocally op = .err (.invalidOp msg) := by
    rcases ht.sameTables.applyLocally op with ⟨_, u, -, hu, -⟩ | ⟨e, hv, hu⟩ | ⟨-, hu⟩
    · rw [hrej] at hu; cases hu
    · rw [hrej] at hu
      rw [hv, Res.err.inj hu]
    · rw [hrej] at hu; cases hu
  unfold openStore
  dsimp only
  rw [hc.scan_eq]
  dsimp only
  rw [View.replay_snoc, ht.replay_eq, Res.ok_bind, View.replayEntry_encodeOp _ _ (fits_of_frame hcap), hreplay,
    Res.err_bind]

/-- A fresh one-disk store, for concrete runs. -/
def freshStore : MetaStore := ⟨⟨soloGroup, 0, none⟩, 0, 0, View.empty⟩

theorem openStore_blank : openStore (World.blank 4096) soloGroup 0 none = .ok freshStore :=
  openStore_of_carries soloGroup none (Wal.carries_nil (fun _ => rfl)) rfl

/-- The theorem at an operation on an inode that does not exist. -/
theorem rejection_never_harmless_missingInode : ∃ w' s',
    freshStore.apply (Env.healthy listOrder) (World.blank 4096) (.beginConvert 7) =
      (.err (.invalidOp "operation referenced an inode that doesn't exist"), w', s') ∧
    ¬LeavesIntact 0 (World.blank 4096) w' s' := by
  have hreach : Reachable 0 (World.blank 4096) freshStore := .fresh (fun _ => rfl) (by decide) openStore_blank
  have happly : freshStore.apply (Env.healthy listOrder) (World.blank 4096) (.beginConvert 7) =
    (.err (.invalidOp "operation referenced an inode that doesn't exist"), _, _) := rfl
  exact ⟨_, _, happly, rejection_never_harmless hreach happly⟩

/-- A second `BeginConvert` on a file is rejected; the disks could be opened before it and cannot after it. -/
theorem second_beginConvert_breaks_open : ∃ w s w' s', Reachable 0 w s ∧ (∃ v, Recovers w 0 v) ∧
    s.apply (Env.healthy listOrder) w (.beginConvert 2) =
      (.err (.invalidOp "BeginConvert on a file that's already Converting or Writable"), w', s') ∧
    ∀ group backup, openStore w' group 0 backup =
      .err (.invalidOp "BeginConvert on a file that's already Converting or Writable") := by
  have hreach : Reachable 0 (World.blank 4096) freshStore := .fresh (fun _ => rfl) (by decide) openStore_blank
  have hreach₁ := Reachable.apply (Env.healthy listOrder) (.createInode (emptyFile 2)) hreach rfl (by simp)
  have hreach₂ := Reachable.apply (Env.healthy listOrder) (.beginConvert 2) hreach₁ rfl (by simp)
  have ht : Tracks 0 (World.blank 4096) freshStore [] 0 [] View.empty :=
    tracks_fresh (fun _ => rfl) (by decide) openStore_blank
  obtain ⟨v₁, ht₁⟩ := ht.apply (Env.healthy listOrder) (.createInode (emptyFile 2)) (by decide)
    (by decide +kernel) rfl
  obtain ⟨v₂, ht₂⟩ := ht₁.apply (Env.healthy listOrder) (.beginConvert 2) (by decide)
    (by decide +kernel) rfl
  exact ⟨_, _, _, _, hreach₂, ⟨v₂, fun group backup => ⟨_, ht₂.openStore_eq group backup, rfl⟩⟩, rfl,
    ht₂.open_fails_after_rejection (Env.healthy listOrder) (.beginConvert 2) (by decide +kernel) rfl⟩

end Tartine.MetaStore
