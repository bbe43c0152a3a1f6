import Tartine.Meta.PoolReopen
import Tartine.Meta.PoolRoot

/-!
# `Meta.PoolCrash` — a pool that is stopped in a call, and opened again

A process that is stopped leaves its disks as its last write left them; the pool's cursors and tables are gone, and the
next `open` reads them off the disks. `Lasting n w p` says that it reads off `w` exactly the cursors and the tables of
`p`. A call that stores no extent keeps that on healthy disks (`Lasting.step`). Stopped anywhere in it, the disks are
those of some lasting pool: of one that did nothing, of one that did the call as on healthy disks, or, for a new file, of
one that has the file without its name (`Leftover`).

The pool that lasts need not be the one that was stopped. A chunk record whose sync was not answered is on its disk, and
the cursor `open` finds there is past it.

* `Lasting.step`, `Lasting.stopped` — calls, and calls that are stopped;
* `Lasting.reopen` — what `open` makes of the disks.
-/

namespace Tartine

open Basis Codec

/-! ## Writes that are answered, and writes that are not -/

/-- A write that was answered has done what it does on healthy disks. -/
theorem World.writeSync_of_ok {env : Env} {w w' : World} {r : DiskRef} {off : Nat} {buf : Bytes} (ord : IterOrder)
    (h : w.writeSync env r off buf = (.ok (), w')) : w.writeSync (Env.healthy ord) r off buf = (.ok (), w') := by
  unfold World.writeSync World.writeAt World.sync at h
  cases hwrite : env.io w.clock with
  | fail left => simp [hwrite] at h
  | ok =>
      simp only [hwrite] at h
      cases hsync : env.io (w.clock + 1) with
      | fail left => simp [hsync] at h
      | ok =>
          simp only [hsync, Prod.mk.injEq, true_and] at h
          rw [World.writeSync_healthy, ← h]

namespace Pool

variable {n : Nat} {env : Env} {ord : IterOrder} {w w' w₁ : World} {p p' p₁ : Pool} {s₁ s' : MetaStore} {op : PoolOp}
  {mop : MetaOp}

/-- How a chunk record ends whose writes are made whole or not at all: the disks are as they were; or it is on its disk,
    and was answered as on healthy disks or was not. -/
inductive AppendEnds (ord : IterOrder) (record : Segment.Record) (w : World) (handle : DiskHandle) :
    Res PoolError Nat → World → Prop where
  | nothing {e w'} (hsame : w'.disk = w.disk) : AppendEnds ord record w handle (.err e) w'
  | written {r w'} (hroom : handle.cursor + (Segment.encode record).length ≤ Segment.segmentSizeBytes)
      (hdisk : w'.disk handle.disk =
        (w.disk handle.disk).writeAt (segmentBaseOffset + handle.cursor) (Segment.encode record))
      (hother : ∀ x, x ≠ handle.disk → w'.disk x = w.disk x)
      (hr : (∃ e, r = .err e) ∨ r = .ok (handle.cursor + (Segment.encode record).length) ∧
        Pool.appendRecord (Env.healthy ord) record w handle = (r, w')) : AppendEnds ord record w handle r w'

theorem appendRecord_whole (henv : env.Whole) (record : Segment.Record) (w : World) (handle : DiskHandle) :
    AppendEnds env.ord record w handle (Pool.appendRecord env record w handle).1
      (Pool.appendRecord env record w handle).2 := by
  rw [appendRecord_eq]
  split
  · exact .nothing rfl
  · rename_i hroom
    have hfits : handle.cursor + (Segment.encode record).length ≤ Segment.segmentSizeBytes := by
      rw [Segment.length_encode] at hroom ⊢
      unfold Segment.headerLen at hroom ⊢
      omega
    obtain ⟨hdisk, hother⟩ := World.writeSync_whole henv w handle.disk (segmentBaseOffset + handle.cursor)
      (Segment.encode record)
    generalize hout : w.writeSync env handle.disk (segmentBaseOffset + handle.cursor) (Segment.encode record) = out
      at hdisk hother
    obtain ⟨report, w'⟩ := out
    cases report with
    | ok u =>
        -- an answered write is the healthy one
        have hhealthy := World.writeSync_of_ok env.ord hout
        have hw' := (Prod.mk.inj (hhealthy.symm.trans (World.writeSync_healthy env.ord w _ _ _))).2
        refine .written hfits ?_ hother (Or.inr ⟨rfl, ?_⟩)
        · rw [hw']
          exact World.setDisk_self
        · rw [appendRecord_eq, if_neg hroom, hhealthy]
    | error e =>
        rcases hdisk with hwritten | hsame
        · exact .written hfits hwritten hother (Or.inl ⟨_, rfl⟩)
        · refine .nothing (funext fun x => ?_)
          by_cases hx : x = handle.disk
          · rw [hx]
            exact hsame
          · exact hother x hx

/-! ## The data phase of `append`, stopped -/

theorem Scannable.congr (hs : Scannable n w p) (hdisk : w'.disk = w.disk) : Scannable n w' p := by
  refine ⟨hs.wf, hs.primaryDisk_eq, hs.handles, hs.disks_eq, ?_, ?_⟩
  · rw [hdisk]
    exact hs.segments
  · rw [hdisk]
    exact hs.log

theorem retains_congr (hdisk : w'.disk = w.disk) (p : Pool) : Retains (w, p) (w', p) := by
  intro id handle hid
  refine ⟨handle, hid, rfl, Nat.le_refl _, fun off k bs _ _ hread => ?_⟩
  rw [hdisk]
  exact hread

/-- What a stopped data phase leaves: disks that can be scanned, if not with the cursors of the pool it was stopped in. -/
def LeavesScannable (n : Nat) (a : World × Pool) (w' : World) : Prop :=
  ∃ q, Scannable n w' q ∧ Retains a (w', q) ∧ q.metaStore = a.2.metaStore

/-- A program that is stopped somewhere leaves disks that can be scanned; if it comes to its end, its pool can be, and it
    did what it does on healthy disks. -/
def StopsScannable {α : Type} (n : Nat) (x y : PoolM α) : Prop :=
  ∀ a : World × Pool, Scannable n a.1 a.2 →
    LeavesScannable n a (x a).2.1 ∧ ∀ v, (x a).1 = .ok v → y a = x a ∧ Scannable n (x a).2.1 (x a).2.2 ∧
      Retains a (x a).2 ∧ (x a).2.2.metaStore = a.2.metaStore

theorem stopsScannable_reads {α : Type} (f : World × Pool → Res PoolError α) :
    StopsScannable n (Action.reads f) (Action.reads f) :=
  fun a hs => ⟨⟨a.2, hs, retains_refl a, rfl⟩, fun _ _ => ⟨rfl, hs, retains_refl a, rfl⟩⟩

theorem stopsScannable_pure {α : Type} (v : α) : StopsScannable n (pure v : PoolM α) (pure v) :=
  fun a hs => ⟨⟨a.2, hs, retains_refl a, rfl⟩, fun _ _ => ⟨rfl, hs, retains_refl a, rfl⟩⟩

/-- **Rule of sequencing.** -/
theorem StopsScannable.bind {α β : Type} {x y : PoolM α} {f g : α → PoolM β} (hx : StopsScannable n x y)
    (hf : ∀ v, StopsScannable n (f v) (g v)) : StopsScannable n (x >>= f) (y >>= g) := by
  intro a hs
  obtain ⟨hleaves, hdone⟩ := hx a hs
  generalize hout : (x >>= f) a = out
  obtain ⟨r, a'⟩ := out
  rcases Action.bind_cases hout with ⟨v, a₁, hxv, hfv⟩ | ⟨e, hxe, rfl⟩ | ⟨hxp, rfl⟩
  · rw [hxv] at hdone
    obtain ⟨hy, hs₁, hret₁, hsame₁⟩ := hdone v rfl
    obtain ⟨⟨q, hq, hretq, hsameq⟩, hdone₁⟩ := hf v a₁ hs₁
    rw [hfv] at hq hretq hdone₁
    refine ⟨⟨q, hq, hret₁.trans hretq, hsameq.trans hsame₁⟩, fun u hu => ?_⟩
    obtain ⟨hg, hs₂, hret₂, hsame₂⟩ := hdone₁ u hu
    exact ⟨(Action.bind_of_ok hy).trans hg, hs₂, hret₁.trans hret₂, hsame₂.trans hsame₁⟩
  · rw [hxe] at hleaves
    exact ⟨hleaves, fun u hu => by cases hu⟩
  · rw [hxp] at hleaves
    exact ⟨hleaves, fun u hu => by cases hu⟩

/-- **A turn of the replica loop.** -/
theorem stopsScannable_replica (henv : env.Whole) (inode : InodeId) (chunkSeq : UInt64) (payload : Bytes) (id : DiskId) :
    StopsScannable n (writeReplica (Pool.appendRecord env (Segment.Record.new inode chunkSeq payload)) id)
      (writeReplica (Pool.appendRecord (Env.healthy env.ord) (Segment.Record.new inode chunkSeq payload)) id) := by
  rintro ⟨w, p⟩ hs
  unfold writeReplica
  dsimp only
  cases hid : p.disks[id]? with
  | none => exact ⟨⟨p, hs, retains_refl _, rfl⟩, fun v hv => by cases hv⟩
  | some handle =>
      dsimp only
      have hends := appendRecord_whole henv (Segment.Record.new inode chunkSeq payload) w handle
      generalize Pool.appendRecord env (Segment.Record.new inode chunkSeq payload) w handle = out at hends ⊢
      obtain ⟨r, w'⟩ := out
      cases hends with
      | nothing hsame => exact ⟨⟨p, hs.congr hsame, retains_congr hsame p, rfl⟩, fun v hv => by cases hv⟩
      | written hroom hdisk hother hr =>
          -- the record is on the disk: a scan finds the cursor past it
          have hmoved := Scannable.appendRecord hs hid hroom rfl hdisk hother
          have hret := (retains_of_write hs.handles hid hdisk hother).trans
            (retains_moveCursor hid (Nat.le_add_right handle.cursor
              (Segment.encode (Segment.Record.new inode chunkSeq payload)).length))
          dsimp only at hr
          rcases hr with ⟨e, rfl⟩ | ⟨rfl, hhealthy⟩
          · exact ⟨⟨_, hmoved, hret, rfl⟩, fun v hv => by cases hv⟩
          · exact ⟨⟨_, hmoved, hret, rfl⟩, fun v hv => ⟨by rw [hhealthy], hmoved, hret, rfl⟩⟩

theorem stopsScannable_replicas (henv : env.Whole) (inode : InodeId) (chunkSeq : UInt64) (payload : Bytes)
    (ids : List DiskId) :
    StopsScannable n (writeReplicas (Pool.appendRecord env (Segment.Record.new inode chunkSeq payload)) ids)
      (writeReplicas (Pool.appendRecord (Env.healthy env.ord) (Segment.Record.new inode chunkSeq payload)) ids) := by
  induction ids with
  | nil => exact stopsScannable_pure _
  | cons id ids ih =>
      refine (stopsScannable_replica henv inode chunkSeq payload id).bind fun written => ?_
      exact ih.bind fun rest => stopsScannable_pure _

theorem stopsScannable_prepareAppend (henv : env.Whole) (inode : InodeId) (payload : Bytes) :
    StopsScannable n (prepareAppend env inode payload) (prepareAppend (Env.healthy env.ord) inode payload) := by
  refine (stopsScannable_reads _).bind ?_
  rintro ⟨chunkSeq, ids⟩
  exact (stopsScannable_replicas henv inode chunkSeq payload ids).bind fun replicas => stopsScannable_pure _

/-! ## Disks that `open` reads the pool off -/

/-- What `open` finds on these disks are the cursors and the tables of this pool. -/
structure Lasting (n : Nat) (w : World) (p : Pool) : Prop extends Scannable n w p where
  replays : ∀ v, View.empty.replay (Wal.scan (w.disk 0) 0).entries = .ok v → v = p.metaStore.view

/-- The data regions are the same. -/
def DataKept (w w' : World) : Prop :=
  ∀ x off k, segmentBaseOffset ≤ off → (w'.disk x).readAt off k = (w.disk x).readAt off k

theorem DataKept.retains (h : DataKept w w') (hdisks : p'.disks = p.disks) : Retains (w, p) (w', p') := by
  intro id handle hid
  refine ⟨handle, (congrArg (fun m => m[id]?) hdisks).trans hid, rfl, Nat.le_refl _, fun off k bs hoff _ hread => ?_⟩
  exact (h handle.disk off k hoff).trans hread

/-- A metadata operation only writes below the data region. -/
theorem dataKept_apply {res : Res MetaStoreError Unit} (hwf : MetaWf s₁) (happly : s₁.apply env w mop = (res, w', s'))
    (hfit : s₁.walCursor + (MetaStore.opFrame env.ord mop).length ≤ Wal.walCapacityBytes) : DataKept w w' := by
  intro x off k hoff
  have hbase := walCapacity_le_segmentBase
  rcases MetaStore.apply_disk hwf.2 happly x with hsame | ⟨buf, hlen, hw⟩
  · rw [hsame]
  · rw [hw, hwf.1, FileDisk.readAt_writeAt_below (by omega)]

theorem Lasting.keep (h : Lasting n w p) (hs : Scannable n w' p') (hkept : LogKept (w, p) (w', p'))
    (hsame : p'.metaStore = p.metaStore) : Lasting n w' p' := by
  refine ⟨hs, ?_⟩
  obtain ⟨ps, hps, -⟩ := h.log
  rw [hsame, (hkept.carries hps).scan_eq, ← hps.scan_eq]
  exact h.replays

/-- **An operation that reached the log** of a lasting pool, together with what the tables make of it. -/
theorem Lasting.logged (h : Lasting n w p)
    (hlog : MetaStore.Logged w p.metaStore (MetaStore.opFrame ord mop) w' s')
    (hdisks : ∀ x, w'.disk x = w.disk x ∨ ∃ buf, buf.length ≤ (MetaStore.opFrame ord mop).length ∧
      w'.disk x = (w.disk x).writeAt p.metaStore.walCursor buf)
    (hfit : p.metaStore.walCursor + (MetaStore.opFrame ord mop).length ≤ Wal.walCapacityBytes) (hop : OpBelow p mop)
    (hview : ∀ u, p.metaStore.view.applyLocally mop = .ok u → s'.view = u) :
    Lasting n w' { p with metaStore := s' } := by
  obtain ⟨ps, hps, hbelow⟩ := h.log
  have hfits : mop.Fits := MetaStore.fits_of_frame hfit
  have hdisk := hlog.disk_eq
  rw [h.primaryDisk_eq, h.wf.1, Nat.zero_add] at hdisk
  have hps' : Wal.Carries (w'.disk 0) (ps ++ [encodeOp ord mop]) s'.walCursor := by
    rw [hdisk, hlog.cursor_eq]
    exact hps.snoc hfit
  refine ⟨⟨⟨hlog.base_eq.trans h.wf.1, ?_⟩, hlog.primaryDisk_eq.trans h.primaryDisk_eq, h.handles, h.disks_eq, ?_,
    _, hps', ?_⟩, ?_⟩
  · show s'.replicator.backupDisk ≠ some s'.replicator.primaryDisk
    rw [hlog.primaryDisk_eq]
    exact hlog.backupDisk_ne
  · intro id handle hid
    obtain ⟨rs, hrs⟩ := h.segments id handle hid
    have hbase := walCapacity_le_segmentBase
    rcases hdisks handle.disk with hsame | ⟨buf, hlen, hw⟩
    · exact ⟨rs, by rw [hsame]; exact hrs⟩
    · exact ⟨rs, by rw [hw]; exact hrs.writeAt_before (by omega)⟩
  · intro x hx
    rcases List.mem_append.mp hx with hold | hnew
    · exact hbelow x hold
    · obtain rfl := List.mem_singleton.mp hnew
      exact ⟨ord, mop, rfl, hfits, hop⟩
  · intro v hv
    rw [hps'.scan_eq, View.replay_snoc] at hv
    obtain ⟨u, hu, hentry⟩ := Res.bind_eq_ok.mp hv
    rw [View.replayEntry_encodeOp _ _ hfits] at hentry
    obtain rfl := h.replays u (by rw [hps.scan_eq]; exact hu)
    exact (hview v hentry).symm

/-! ## Metadata operations -/

/-- The store an operation is handed to: the pool's own, or, for a new inode, one that has counted it already. -/
inductive Handed (s : MetaStore) (mop : MetaOp) : MetaStore → Prop where
  | same : Handed s mop s
  | counted {id s₁ rec} (halloc : s.allocInode = .ok (id, s₁)) (hmop : mop = .createInode rec) (hrec : rec.inode = id) :
      Handed s mop s₁

/-- Counting an inode before it is created makes no difference to the tables. -/
theorem Handed.applyLocally {s : MetaStore} (h : Handed s mop s₁) :
    s₁.view.applyLocally mop = s.view.applyLocally mop := by
  cases h with
  | same => rfl
  | @counted id _ rec halloc hmop hrec =>
      subst hmop hrec
      obtain ⟨next, hnext, hs₁⟩ := Res.bind_eq_ok.mp halloc
      obtain ⟨hid, rfl⟩ := Prod.mk.inj (Res.ok.inj hs₁)
      have hadd := Res.checkedAdd_eq_ok.mp hnext
      simp only [View.applyLocally, View.writeInode, ← hid, hnext, Res.ok_bind, Res.pure_eq, Res.ok.injEq, View.mk.injEq,
        true_and]
      have hle : s.view.nextInode ≤ next := UInt64.le_iff_toNat_le.mpr (by omega)
      show (if next ≤ next then next else next) = if s.view.nextInode ≤ next then next else s.view.nextInode
      rw [ite_self, if_pos hle]

theorem Handed.layout {s : MetaStore} (h : Handed s mop s₁) :
    s₁.walBaseOffset = s.walBaseOffset ∧ s₁.walCursor = s.walCursor ∧ s₁.replicator = s.replicator := by
  cases h with
  | same => exact ⟨rfl, rfl, rfl⟩
  | counted halloc hmop hrec =>
      obtain ⟨next, -, hs₁⟩ := Res.bind_eq_ok.mp halloc
      obtain ⟨-, rfl⟩ := Prod.mk.inj (Res.ok.inj hs₁)
      exact ⟨rfl, rfl, rfl⟩

theorem Handed.wf (h : Handed p.metaStore mop s₁) (hwf : MetaWf p.metaStore) : MetaWf s₁ := by
  obtain ⟨hbase, -, hrep⟩ := h.layout
  exact ⟨hbase.trans hwf.1, by rw [hrep]; exact hwf.2⟩

/-- What reached the log of the store it was handed to reached the pool's. -/
theorem Handed.logged {frame : Bytes} (h : Handed p.metaStore mop s₁) (hlog : MetaStore.Logged w s₁ frame w' s') :
    MetaStore.Logged w p.metaStore frame w' s' := by
  obtain ⟨hbase, hcursor, hrep⟩ := h.layout
  obtain ⟨h₁, h₂, h₃, h₄, h₅⟩ := hlog
  rw [hbase] at h₁ h₅
  rw [hcursor] at h₂ h₅
  rw [hrep] at h₃ h₄ h₅
  exact ⟨h₁, h₂, h₃, h₄, h₅⟩

theorem Handed.disks {res : Res MetaStoreError Unit} (h : Handed p.metaStore mop s₁) (hwf : MetaWf p.metaStore)
    (happly : s₁.apply env w mop = (res, w', s')) (x : DiskRef) :
    w'.disk x = w.disk x ∨ ∃ buf, buf.length ≤ (MetaStore.opFrame env.ord mop).length ∧
      w'.disk x = (w.disk x).writeAt p.metaStore.walCursor buf := by
  obtain ⟨hbase, hcursor, -⟩ := h.layout
  have hdisk := MetaStore.apply_disk (h.wf hwf).2 happly x
  rwa [hbase, hcursor, hwf.1, Nat.zero_add] at hdisk

/-- **A metadata operation that reached the log.** -/
theorem Lasting.apply {res : Res MetaStoreError Unit} (h : Lasting n w p) (hh : Handed p.metaStore mop s₁)
    (happly : s₁.apply env w mop = (res, w', s')) (hres : res ≠ .panic)
    (hlog : MetaStore.Logged w s₁ (MetaStore.opFrame env.ord mop) w' s')
    (hfit : s₁.walCursor + (MetaStore.opFrame env.ord mop).length ≤ Wal.walCapacityBytes) (hop : OpBelow p mop) :
    Lasting n w' { p with metaStore := s' } := by
  rw [hh.layout.2.1] at hfit
  refine h.logged (hh.logged hlog) (hh.disks h.wf happly) hfit hop fun u hu => ?_
  rw [← hh.applyLocally] at hu
  rcases MetaStore.apply_primary (hh.wf h.wf).2 happly hres with ⟨-, ⟨u', hu', -, hview⟩ | ⟨e, he, -⟩⟩ | ⟨-, rfl, -⟩
  · obtain rfl := Res.ok.inj (hu.symm.trans hu')
    exact hview
  · cases hu.symm.trans he
  · have hcursor := hlog.cursor_eq
    have hpos := MetaStore.opFrame_pos env.ord mop
    omega

theorem Lasting.log_le (h : Lasting n w p) : p.metaStore.walCursor ≤ Wal.walCapacityBytes := by
  obtain ⟨ps, hps, -⟩ := h.log
  exact hps.chain.end_le Wal.probe_bounded (Nat.zero_le _)

/-- `b` stands where `a` does: with its tables, everything it could read, and a log at least as long. -/
structure StandsFor (a b : World × Pool) : Prop where
  retains : Retains a b
  view_eq : b.2.metaStore.view = a.2.metaStore.view
  log_le : a.2.metaStore.walCursor ≤ b.2.metaStore.walCursor

theorem standsFor_refl (a : World × Pool) : StandsFor a a := ⟨retains_refl a, rfl, Nat.le_refl _⟩

theorem StandsFor.trans {a b c : World × Pool} (h : StandsFor a b) (h' : StandsFor b c) : StandsFor a c :=
  ⟨h.retains.trans h'.retains, h'.view_eq.trans h.view_eq, Nat.le_trans h.log_le h'.log_le⟩

/-- The store that has an operation in its log: what `open` makes of a frame that is on the primary. -/
def entered (ord : IterOrder) (s : MetaStore) (mop : MetaOp) : MetaStore :=
  ((s.advance (MetaStore.opFrame ord mop).length).applyView mop).2

@[simp] theorem entered_walCursor (ord : IterOrder) (s : MetaStore) (mop : MetaOp) :
    (entered ord s mop).walCursor = s.walCursor + (MetaStore.opFrame ord mop).length := by
  simp [entered]

theorem logged_entered {s : MetaStore} (hne : s.replicator.backupDisk ≠ some s.replicator.primaryDisk)
    (hdisk : w'.disk s.replicator.primaryDisk =
      (w.disk s.replicator.primaryDisk).writeAt (s.walBaseOffset + s.walCursor) (MetaStore.opFrame ord mop)) :
    MetaStore.Logged w s (MetaStore.opFrame ord mop) w' (entered ord s mop) :=
  ⟨by simp [entered], by simp, by simp [entered], by simpa [entered] using hne, hdisk⟩

theorem view_entered (ord : IterOrder) (s : MetaStore) (mop : MetaOp) :
    s.view.applyLocally mop = .ok (entered ord s mop).view ∨
      (∀ u, s.view.applyLocally mop ≠ .ok u) ∧ (entered ord s mop).view = s.view := by
  unfold entered MetaStore.applyView
  rw [MetaStore.advance_view]
  cases s.view.applyLocally mop with
  | ok u => exact Or.inl rfl
  | err e => exact Or.inr ⟨by simp, rfl⟩
  | panic => exact Or.inr ⟨by simp, rfl⟩

/-- **A metadata operation that was stopped**: a pool lasts that knows nothing of it, or one that has it. -/
theorem Lasting.applyStopped (h : Lasting n w p) (hh : Handed p.metaStore mop s₁) (henv : env.Whole)
    (hfit : s₁.walCursor + (MetaStore.opFrame env.ord mop).length ≤ Wal.walCapacityBytes) (hop : OpBelow p mop) :
    ∃ q, Lasting n (s₁.apply env w mop).2.1 q ∧ DataKept w (s₁.apply env w mop).2.1 ∧ q.disks = p.disks ∧
      (q.metaStore.view = p.metaStore.view ∧ p.metaStore.walCursor ≤ q.metaStore.walCursor ∨
        p.metaStore.view.applyLocally mop = .ok q.metaStore.view ∧
          q.metaStore.walCursor = p.metaStore.walCursor + (MetaStore.opFrame env.ord mop).length) := by
  have hdisk := MetaStore.apply_whole henv (hh.wf h.wf).2 w mop
  generalize happly : s₁.apply env w mop = out at hdisk ⊢
  obtain ⟨res, w', s'⟩ := out
  have hdata := dataKept_apply (hh.wf h.wf) happly hfit
  have hdisks := hh.disks h.wf happly
  obtain ⟨hbase, hcursor, hrep⟩ := hh.layout
  rw [hrep, hbase, hcursor] at hdisk
  rw [hcursor] at hfit
  rcases hdisk with hwritten | hsame
  · -- the frame is on the primary: the next `open` replays it
    have hview := view_entered env.ord p.metaStore mop
    refine ⟨{ p with metaStore := entered env.ord p.metaStore mop }, ?_, hdata, rfl, ?_⟩
    · refine h.logged (logged_entered h.wf.2 hwritten) hdisks hfit hop fun u hu => ?_
      rcases hview with hok | ⟨hnot, -⟩
      · exact (Res.ok.inj (hu.symm.trans hok)).symm
      · exact absurd hu (hnot u)
    · rcases hview with hok | ⟨-, hsame⟩
      · exact Or.inr ⟨hok, entered_walCursor _ _ _⟩
      · exact Or.inl ⟨hsame, by simp⟩
  · -- nothing of it is there
    refine ⟨p, ⟨⟨h.wf, h.primaryDisk_eq, h.handles, h.disks_eq, ?_, ?_⟩, ?_⟩, hdata, rfl, Or.inl ⟨rfl, Nat.le_refl _⟩⟩
    · intro id handle hid
      obtain ⟨rs, hrs⟩ := h.segments id handle hid
      have hregion := walCapacity_le_segmentBase
      rcases hdisks handle.disk with hsame | ⟨buf, hlen, hw⟩
      · exact ⟨rs, by rw [hsame]; exact hrs⟩
      · exact ⟨rs, by rw [hw]; exact hrs.writeAt_before (by omega)⟩
    · rw [h.primaryDisk_eq] at hsame
      dsimp only at hsame ⊢
      rw [hsame]
      exact h.log
    · rw [h.primaryDisk_eq] at hsame
      dsimp only at hsame ⊢
      rw [hsame]
      exact h.replays

/-! ## Calls that store no extent -/

/-- The call stores chunk records at most, whatever it finds. -/
def Chunked : PoolOp → Prop
  | .completeConvert _ => False
  | .write ..          => False
  | _                  => True

theorem Chunked.not_stores (h : Chunked op) (env : Env) (w : World) (p : Pool) (res : Res PoolError PoolVal) :
    ¬(Event.call env w p op res).StoresExtent := by
  cases op with
  | completeConvert inode => exact h.elim
  | write inode offset data => exact h.elim
  | _ => exact id

/-- The one data phase of such a call. -/
theorem Chunked.dataPhase_eq {x : PoolM MetaOp} (h : Chunked op) (hop : dataPhase env op = some x) :
    ∃ inode payload, op = .append inode payload ∧ x = prepareAppend env inode payload := by
  cases dataPhase_cases hop with
  | append => exact ⟨_, _, rfl, rfl⟩
  | completeConvert => exact h.elim
  | write => exact h.elim

/-- The data phase of a call, stopped or not. -/
theorem Lasting.phase {x : PoolM MetaOp} (h : Lasting n w p) (henv : env.Whole) (hop : Chunked op)
    (hx : dataPhase env op = some x) :
    (∃ q, Lasting n (x (w, p)).2.1 q ∧ StandsFor (w, p) ((x (w, p)).2.1, q)) ∧
      ∀ mop, (x (w, p)).1 = .ok mop → Lasting n (x (w, p)).2.1 (x (w, p)).2.2 ∧ StandsFor (w, p) (x (w, p)).2 ∧
        ∃ y, dataPhase (Env.healthy env.ord) op = some y ∧ y (w, p) = x (w, p) := by
  have hkept : ∀ q, LogKept (w, p) ((x (w, p)).2.1, q) := fun q => logKept_dataPhase hx (w, p)
  obtain ⟨inode, payload, rfl, rfl⟩ := hop.dataPhase_eq hx
  obtain ⟨⟨q, hq, hret, hsame⟩, hdone⟩ := stopsScannable_prepareAppend henv inode payload (w, p) h.toScannable
  have hstands : ∀ {q : Pool}, Retains (w, p) ((prepareAppend env inode payload (w, p)).2.1, q) →
      q.metaStore = p.metaStore → StandsFor (w, p) ((prepareAppend env inode payload (w, p)).2.1, q) :=
    fun hret hsame => ⟨hret, congrArg MetaStore.view hsame, Nat.le_of_eq (congrArg MetaStore.walCursor hsame).symm⟩
  refine ⟨⟨q, h.keep hq (hkept q) hsame, hstands hret hsame⟩, fun mop hmop => ?_⟩
  obtain ⟨hhealthy, hs₁, hret₁, hsame₁⟩ := hdone mop hmop
  exact ⟨h.keep hs₁ (hkept _) hsame₁, hstands hret₁ hsame₁, _, rfl, hhealthy⟩

/-- Where a call hands over its last operation, the pool lasts, but for an inode it has counted. -/
theorem Hands.lasting (hh : Hands env w p op mop w₁ p₁) (h : Lasting n w p) (henv : env.Whole) (hop : Chunked op)
    (hfit : ∀ c ∈ p.metaCalls env w op, c.Fits) :
    ∃ s₀, Lasting n w₁ { p₁ with metaStore := s₀ } ∧ Handed s₀ mop p₁.metaStore ∧
      OpBelow { p₁ with metaStore := s₀ } mop := by
  have hbelow := hh.opBelow h.handles (hop.not_stores env w p .panic)
  cases hh with
  | phase hphase hx =>
      have hdone := (h.phase henv hop hphase).2
      rw [hx] at hdone
      exact ⟨_, (hdone _ rfl).1, .same, hbelow⟩
  | beginConvert => exact ⟨_, h, .same, hbelow⟩
  | setRedundancy => exact ⟨_, h, .same, hbelow⟩
  | unlink => exact ⟨_, h, .same, hbelow⟩
  | create halloc => exact ⟨p.metaStore, h, .counted halloc rfl rfl, Or.inl rfl⟩
  | @link parent name redundancy uid gid unixMode now id s₁ w₂ s₂ halloc hcreate =>
      have hcounted : Handed p.metaStore (.createInode (newFile id redundancy uid gid unixMode now)) s₁ :=
        .counted halloc rfl rfl
      have hfit₁ := hfit _ (Hands.create halloc).mem_metaCalls
      have hlog := (MetaStore.apply_eq_ok (hcounted.wf h.wf).2 hcreate).1
      exact ⟨_, h.apply hcounted hcreate (by simp) hlog hfit₁ (Or.inl rfl), .same, hbelow⟩

/-- **Step lemma.** A call on healthy disks that stores no extent: what `open` would find is what the pool has. -/
theorem Lasting.step {res : Res PoolError PoolVal} (h : Lasting n w p) (hop : Chunked op)
    (hfit : ∀ c ∈ p.metaCalls (Env.healthy ord) w op, c.Fits)
    (hstep : Pool.step (Env.healthy ord) op (w, p) = (res, w', p')) (hres : res ≠ .panic) : Lasting n w' p' := by
  rcases step_cases hstep hres with ⟨-, rfl, rfl⟩ | ⟨x, e, hx, hphase, -⟩ | ⟨mop, w₁, p₁, q, s', hh, happly, rfl, hcloses⟩
  · exact h
  · have hs := h.toScannable.phase (hop.not_stores (Env.healthy ord) w p .panic) hx
    have hkept : LogKept (w, p) (x (w, p)).2 := logKept_dataPhase hx (w, p)
    rw [hphase] at hs hkept
    exact h.keep hs hkept (metaStore_of_dataPhase hx hphase)
  · obtain ⟨s₀, h₀, hhanded, hbelow⟩ := hh.lasting h (whole_healthy ord) hop hfit
    have hq : q ≠ .panic := by
      rintro rfl
      cases hcloses
    exact h₀.apply hhanded happly hq (MetaStore.logged_of_healthy (hhanded.wf h₀.wf).2 happly hq) (hfit _ hh.mem_metaCalls)
      hbelow

/-- **What a call that was stopped may leave**: a pool that stands where the one before it stood, or where the one after
    it would stand on healthy disks, or where the file is that has no name yet. -/
inductive Leftover (ord : IterOrder) (w : World) (p : Pool) (op : PoolOp) (a : World × Pool) : Prop where
  | nothing (h : StandsFor (w, p) a) : Leftover ord w p op a
  | all {v w₂ p₂} (hstep : Pool.step (Env.healthy ord) op (w, p) = (.ok v, w₂, p₂)) (h : StandsFor (w₂, p₂) a) :
      Leftover ord w p op a
  | unnamed {parent name redundancy uid gid unixMode now id s₁ w₂ s₂}
      (hop : op = .createFile parent name redundancy uid gid unixMode now) (halloc : p.metaStore.allocInode = .ok (id, s₁))
      (hcreate : s₁.apply (Env.healthy ord) w (.createInode (newFile id redundancy uid gid unixMode now)) = (.ok (), w₂, s₂))
      (h : StandsFor (w₂, { p with metaStore := s₂ }) a) : Leftover ord w p op a

theorem DataKept.symm (h : DataKept w w') : DataKept w' w := fun x off k hoff => (h x off k hoff).symm

theorem DataKept.trans {w₂ : World} (h : DataKept w w') (h' : DataKept w' w₂) : DataKept w w₂ :=
  fun x off k hoff => (h' x off k hoff).trans (h x off k hoff)

/-- The call that hands over one operation after its data phase, on disks that take it. -/
theorem step_of_apply {mop : MetaOp} (hh : Hands env w p op mop w₁ p₁) (hcreate : ∀ rec, mop ≠ .createInode rec)
    (happly : p₁.metaStore.apply env w₁ mop = (.ok (), w', s')) :
    Pool.step env op (w, p) = (.ok (valOf mop), w', { p₁ with metaStore := s' }) := by
  have hmeta := applyMeta_of_apply (p := p₁) happly
  cases hh with
  | phase hop hx =>
      rw [step_of_dataPhase hop]
      have hval : valOf mop = .unit := by
        rcases dataPhase_eq_ok hop hx with ⟨_, _, _, -, rfl⟩ | ⟨_, _, -, rfl⟩ | ⟨_, _, _, _, -, rfl⟩
        · rfl
        · rfl
        · rfl
      rw [hval]
      exact Action.bind_of_ok ((Action.bind_of_ok hx).trans hmeta)
  | beginConvert => exact Action.bind_of_ok hmeta
  | setRedundancy => exact Action.bind_of_ok hmeta
  | unlink => exact Action.bind_of_ok hmeta
  | create halloc => exact absurd rfl (hcreate _)
  | @link parent name redundancy uid gid unixMode now id s w₂ s₂ halloc hcreate =>
      have hid : allocInode (w, p) = (.ok id, w, { p with metaStore := s }) := by simp only [allocInode, halloc]
      have hmk := applyMeta_of_apply (p := { p with metaStore := s }) hcreate
      refine Action.bind_of_ok (a := id) ?_
      refine (Action.bind_of_ok hid).trans ?_
      refine (Action.bind_of_ok hmk).trans ?_
      exact Action.bind_of_ok hmeta

/-- What the next store makes of an operation that the tables take. -/
theorem exists_apply {u : View} (ord : IterOrder) (w : World) (hwf : MetaWf s₁) (hu : s₁.view.applyLocally mop = .ok u) :
    ∃ w₂ s₂, s₁.apply (Env.healthy ord) w mop = (.ok (), w₂, s₂) ∧ s₂.view = u ∧
      s₂.walCursor = s₁.walCursor + (MetaStore.opFrame ord mop).length := by
  obtain ⟨w₂, s₂, happly⟩ := MetaStore.apply_healthy_of_applyLocally ord w hu
  obtain ⟨hlog, hview⟩ := MetaStore.apply_eq_ok hwf.2 happly
  exact ⟨w₂, s₂, happly, Res.ok.inj (hview.symm.trans hu), hlog.cursor_eq⟩

/-- A stopped operation, next to the same one on healthy disks. -/
theorem standsFor_apply {q : Pool} {w₂ : World} {s₂ : MetaStore} (hwf : MetaWf s₁)
    (hfit : s₁.walCursor + (MetaStore.opFrame env.ord mop).length ≤ Wal.walCapacityBytes)
    (happly : s₁.apply (Env.healthy env.ord) w mop = (.ok (), w₂, s₂)) (hdata : DataKept w w') (hdisks : q.disks = p.disks)
    (hview : q.metaStore.view = s₂.view) (hlog : s₂.walCursor ≤ q.metaStore.walCursor) :
    StandsFor (w₂, { p with metaStore := s₂ }) (w', q) :=
  ⟨((dataKept_apply hwf happly hfit).symm.trans hdata).retains hdisks, hview, hlog⟩

/-- A call that hands over one operation, stopped in it. -/
theorem Leftover.of_applyStopped {q : Pool} (hh : Hands (Env.healthy env.ord) w p op mop w₁ p₁)
    (hcreate : ∀ rec, mop ≠ .createInode rec) (hstands : StandsFor (w, p) (w₁, p₁)) (hwf : MetaWf p₁.metaStore)
    (hfit : p₁.metaStore.walCursor + (MetaStore.opFrame env.ord mop).length ≤ Wal.walCapacityBytes)
    (hdata : DataKept w₁ w') (hdisks : q.disks = p₁.disks)
    (hcases : q.metaStore.view = p₁.metaStore.view ∧ p₁.metaStore.walCursor ≤ q.metaStore.walCursor ∨
      p₁.metaStore.view.applyLocally mop = .ok q.metaStore.view ∧
        q.metaStore.walCursor = p₁.metaStore.walCursor + (MetaStore.opFrame env.ord mop).length) :
    Leftover env.ord w p op (w', q) := by
  rcases hcases with ⟨hview, hlog⟩ | ⟨hview, hlog⟩
  · exact .nothing (hstands.trans ⟨hdata.retains hdisks, hview, hlog⟩)
  · obtain ⟨w₂, s₂, happly, hview₂, hlog₂⟩ := exists_apply env.ord w₁ hwf hview
    refine .all (step_of_apply hh hcreate happly) ?_
    exact standsFor_apply hwf hfit happly hdata hdisks hview₂.symm (by omega)

/-- The frames of a call are as long on disks that fail: where there is room on healthy ones, there is room. -/
theorem Lasting.fits_of_healthy (h : Lasting n w p) (henv : env.Whole) (hop : Chunked op)
    (hfit : ∀ c ∈ p.metaCalls (Env.healthy env.ord) w op, c.Fits) : ∀ c ∈ p.metaCalls env w op, c.Fits := by
  have hroom : ∀ {mop : MetaOp} {w₁ : World} {p₁ : Pool}, Hands (Env.healthy env.ord) w p op mop w₁ p₁ →
      p₁.metaStore.walCursor + (MetaStore.opFrame env.ord mop).length ≤ Wal.walCapacityBytes :=
    fun hh => hfit _ hh.mem_metaCalls
  intro c hc
  obtain ⟨mop, w₁, p₁, rfl, hh⟩ := exists_hands hc
  show p₁.metaStore.walCursor + (MetaStore.opFrame env.ord mop).length ≤ Wal.walCapacityBytes
  cases hh with
  | phase hphase hx =>
      have hdone := (h.phase henv hop hphase).2
      rw [hx] at hdone
      obtain ⟨-, -, y, hy, hyx⟩ := hdone _ rfl
      exact hroom (.phase hy hyx)
  | beginConvert => exact hroom .beginConvert
  | setRedundancy => exact hroom .setRedundancy
  | unlink => exact hroom .unlink
  | create halloc => exact hroom (.create halloc)
  | @link parent name redundancy uid gid unixMode now id s₁ w₂ s₂ halloc hcreate =>
      have hcounted : Handed p.metaStore (.createInode (newFile id redundancy uid gid unixMode now)) s₁ :=
        .counted halloc rfl rfl
      obtain ⟨hlog, hcreated⟩ := MetaStore.apply_eq_ok (hcounted.wf h.wf).2 hcreate
      obtain ⟨w₃, s₃, happly, -, hlog₃⟩ := exists_apply env.ord w (hcounted.wf h.wf) hcreated
      have hlink := hroom (.link halloc happly)
      dsimp only at hlink ⊢
      rw [hlog.cursor_eq, ← hlog₃]
      exact hlink

/-- **However a call is stopped**, its disks are those of a pool that lasts, with nothing of the call, all of it, or a new
    file that has no name. -/
theorem Lasting.stopped (h : Lasting n w p) (henv : env.Whole) (hop : Chunked op)
    (hfit : ∀ c ∈ p.metaCalls env w op, c.Fits) :
    ∃ q, Lasting n (Pool.step env op (w, p)).2.1 q ∧ Leftover env.ord w p op ((Pool.step env op (w, p)).2.1, q) := by
  rcases step_world env w p op with hsame | ⟨x, hx, hdata⟩ | ⟨mop, w₁, p₁, hh, hworld⟩
  · rw [hsame]
    exact ⟨p, h, .nothing (standsFor_refl _)⟩
  · rw [hdata]
    obtain ⟨q, hq, hstands⟩ := (h.phase henv hop hx).1
    exact ⟨q, hq, .nothing hstands⟩
  · rw [hworld]
    have hfit₁ : p₁.metaStore.walCursor + (MetaStore.opFrame env.ord mop).length ≤ Wal.walCapacityBytes :=
      hfit _ hh.mem_metaCalls
    have hbelow := hh.opBelow h.handles (hop.not_stores env w p .panic)
    -- an operation by itself
    have halone : Hands (Env.healthy env.ord) w p op mop w p → w₁ = w → p₁ = p → (∀ rec, mop ≠ .createInode rec) →
        ∃ q, Lasting n (p₁.metaStore.apply env w₁ mop).2.1 q ∧
          Leftover env.ord w p op ((p₁.metaStore.apply env w₁ mop).2.1, q) := by
      rintro hhealthy rfl rfl hcreate
      obtain ⟨q, hq, hsame, hdisks, hcases⟩ := h.applyStopped .same henv hfit₁ hbelow
      exact ⟨q, hq, .of_applyStopped hhealthy hcreate (standsFor_refl _) h.wf hfit₁ hsame hdisks hcases⟩
    cases hh with
    | phase hphase hx =>
        have hdone := (h.phase henv hop hphase).2
        rw [hx] at hdone
        obtain ⟨h₁, hstands, y, hy, hyx⟩ := hdone _ rfl
        obtain ⟨q, hq, hsame, hdisks, hcases⟩ := h₁.applyStopped .same henv hfit₁ hbelow
        refine ⟨q, hq, .of_applyStopped (.phase hy hyx) ?_ hstands h₁.wf hfit₁ hsame hdisks hcases⟩
        rintro rec rfl
        exact dataPhase_storesData hphase hx
    | beginConvert => exact halone .beginConvert rfl rfl (by simp)
    | setRedundancy => exact halone .setRedundancy rfl rfl (by simp)
    | unlink => exact halone .unlink rfl rfl (by simp)
    | @create parent name redundancy uid gid unixMode now id s₁ halloc =>
        have hcounted : Handed p.metaStore (.createInode (newFile id redundancy uid gid unixMode now)) s₁ :=
          .counted halloc rfl rfl
        obtain ⟨q, hq, hsame, hdisks, hcases⟩ := h.applyStopped hcounted henv hfit₁ (Or.inl rfl)
        refine ⟨q, hq, ?_⟩
        rcases hcases with ⟨hview, hlog⟩ | ⟨hview, hlog⟩
        · exact .nothing ⟨hsame.retains hdisks, hview, hlog⟩
        · rw [← hcounted.applyLocally] at hview
          obtain ⟨w₂, s₂, happly, hview₂, hlog₂⟩ := exists_apply env.ord w (hcounted.wf h.wf) hview
          rw [hcounted.layout.2.1] at hlog₂
          exact .unnamed rfl halloc happly
            (standsFor_apply (hcounted.wf h.wf) hfit₁ happly hsame hdisks hview₂.symm (by omega))
    | @link parent name redundancy uid gid unixMode now id s₁ w₂ s₂ halloc hcreate =>
        have hcounted : Handed p.metaStore (.createInode (newFile id redundancy uid gid unixMode now)) s₁ :=
          .counted halloc rfl rfl
        have hfit₀ := hfit _ (Hands.create halloc).mem_metaCalls
        have hwf₁ := hcounted.wf h.wf
        -- the file was created, perhaps without its backup; on healthy disks it would have been, too
        obtain ⟨hlog, hcreated⟩ := MetaStore.apply_eq_ok hwf₁.2 hcreate
        have h₁ := h.apply hcounted hcreate (by simp) hlog hfit₀ (Or.inl rfl)
        obtain ⟨w₃, s₃, happly, hview₃, hlog₃⟩ := exists_apply env.ord w hwf₁ hcreated
        have hsame₀ := dataKept_apply hwf₁ hcreate hfit₀
        obtain ⟨q, hq, hsame, hdisks, hcases⟩ := h₁.applyStopped .same henv hfit₁ trivial
        refine ⟨q, hq, ?_⟩
        have hcursor := hlog.cursor_eq
        dsimp only at hfit₁ hcases
        rcases hcases with ⟨hview, hlog'⟩ | ⟨hview, hlog'⟩
        · refine .unnamed rfl halloc happly ?_
          exact standsFor_apply hwf₁ hfit₀ happly (hsame₀.trans hsame) hdisks (hview.trans hview₃.symm) (by omega)
        · have hwf₃ := hwf₁.apply happly
          rw [← hview₃] at hview
          obtain ⟨w₄, s₄, happly₄, hview₄, hlog₄⟩ := exists_apply env.ord w₃ hwf₃ hview
          refine .all (step_of_apply (.link halloc happly) (by simp) happly₄) ?_
          have hsame₃ := (dataKept_apply hwf₁ happly hfit₀).symm.trans (hsame₀.trans hsame)
          exact standsFor_apply (p := p) hwf₃ (by omega) happly₄ hsame₃ hdisks hview₄.symm (by omega)

/-! ## What `open` makes of the disks -/

/-- **The scan finds every cursor again**, and no other. -/
theorem Scannable.disks_reopen {classes : List DiskClass} (hs : Scannable n w p)
    (hopen : openWithClasses w n classes = .ok p') (id : DiskId) : p'.disks[id]? = p.disks[id]? := by
  obtain ⟨-, -, s, -, rfl⟩ := openWithClasses_eq_ok hopen
  have hdisks := hs.disks_eq id
  show (handlesOf n _)[id]? = _
  rw [handlesOf_cursor n _ (fun _ => 0)]
  cases hid : p.disks[id]? with
  | none =>
      rw [hid] at hdisks
      rw [Option.map_eq_none_iff.mp hdisks.symm]
      rfl
  | some handle =>
      rw [hid] at hdisks
      obtain ⟨h₀, hid₀, hdisk⟩ := Option.map_eq_some_iff.mp hdisks.symm
      obtain ⟨rs, hrs⟩ := hs.segments id handle hid
      rw [hid₀, Option.map_some, hdisk, hrs.scan_eq]

/-- **A reopened pool lasts, and stands where the one before it stood.** -/
theorem Lasting.reopen {classes : List DiskClass} (h : Lasting n w p) (hopen : openWithClasses w n classes = .ok p') :
    Lasting n w p' ∧ StandsFor (w, p) (w, p') ∧ p'.metaStore.walCursor = p.metaStore.walCursor := by
  have hdisks := h.toScannable.disks_reopen hopen
  obtain ⟨-, -, s, hstore, hp'⟩ := openWithClasses_eq_ok hopen
  obtain ⟨hreplay, hs⟩ := MetaStore.openStore_eq_ok hstore
  obtain ⟨ps, hps, hbelow⟩ := h.log
  have hsame : p'.metaStore = s := by rw [hp']
  have hview : p'.metaStore.view = p.metaStore.view := by
    rw [hsame]
    exact h.replays _ hreplay
  have hlog : p'.metaStore.walCursor = p.metaStore.walCursor := by rw [hsame, hs, hps.scan_eq]
  have hret : Retains (w, p) (w, p') := fun id handle hid =>
    ⟨handle, (hdisks id).trans hid, rfl, Nat.le_refl _, fun _ _ _ _ _ hread => hread⟩
  refine ⟨⟨⟨?_, ?_, ?_, ?_, ?_, ps, ?_, ?_⟩, ?_⟩, ⟨hret, hview, Nat.le_of_eq hlog.symm⟩, hlog⟩
  · rw [hsame]
    exact metaWf_open hstore
  · rw [hsame, hs]
  · exact fun id handle hid => h.handles id handle ((hdisks id).symm.trans hid)
  · intro id
    rw [hdisks id]
    exact h.disks_eq id
  · exact fun id handle hid => h.segments id handle ((hdisks id).symm.trans hid)
  · rw [hlog]
    exact hps
  · intro x hx
    obtain ⟨ord, op, rfl, hfits, hop⟩ := hbelow x hx
    exact ⟨ord, op, rfl, hfits, hop.mono hret.grows⟩
  · rw [hview]
    exact h.replays

/-- A pool that was just formatted. -/
theorem lasting_format {w₀ : World} {classes : List DiskClass} {now : UInt64}
    (h : formatWithClasses (Env.healthy ord) w₀ n classes now = (.ok (), w, some p)) : Lasting n w p := by
  obtain ⟨hn, -, s, happly, rfl, -⟩ := format_eq_ok h
  have hblank : Lasting n (createDisks w₀ n) ⟨poolMapOf classes, handlesOf n (fun _ => 0), freshStore n⟩ := by
    refine ⟨scannable_created w₀ hn classes, fun v hv => ?_⟩
    have hreplay := (MetaStore.openStore_eq_ok (openStore_createDisks w₀ hn)).1
    exact Res.ok.inj (hv.symm.trans hreplay)
  have hfit : (freshStore n).walCursor + (MetaStore.opFrame ord (.createInode (rootRecord n now))).length ≤
      Wal.walCapacityBytes := by
    show 0 + _ ≤ _
    rw [Nat.zero_add]
    exact length_rootFrame ord n now
  have hlog := (MetaStore.apply_eq_ok hblank.wf.2 happly).1
  exact hblank.apply (show Handed (freshStore n) _ (freshStore n) from .same) happly (by simp) hlog hfit (Or.inr rfl)

end Pool

end Tartine
