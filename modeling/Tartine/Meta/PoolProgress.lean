import Tartine.Meta.PoolAppend

/-!
# `Meta.PoolProgress` — what goes through on healthy disks

The other theorems about the pool start from a call that returned Ok. Here are calls that do: on healthy disks, with the
log inside its region, a policy can be set on every file that exists, a chunk be appended wherever its disk has room, and
a conversion be begun and completed. Policies name one disk, so that what is written where is known.

* `setRedundancy_healthy`, `append_healthy`, `beginConvert_healthy`, `completeConvert_healthy` — one call each, with the
  record and the log it leaves.
-/

namespace Tartine.Pool

open Basis Codec

variable {w w' : World} {p p' : Pool} {i : InodeId} {ord : IterOrder}

/-- What healthy disks and the table say to an operation on a file. -/
theorem Intact.apply_healthy (ord : IterOrder) {mop : MetaOp} {u : View} (hi : Intact w p)
    (hfit : p.metaStore.walCursor + (MetaStore.opFrame ord mop).length ≤ Wal.walCapacityBytes)
    (hempty : ∀ rec, mop = .createInode rec → rec.chunkCount = 0) (ht : mop.target = some i)
    (hu : p.metaStore.view.applyLocally mop = .ok u) :
    ∃ w' s' rec, applyMeta (Env.healthy ord) mop (w, p) = (.ok (), w', { p with metaStore := s' }) ∧
      s'.walCursor = p.metaStore.walCursor + (MetaStore.opFrame ord mop).length ∧
      p.metaStore.view.RecStep mop rec ∧ s'.view.Has i rec := by
  obtain ⟨w', s', happly⟩ := MetaStore.apply_healthy_of_applyLocally ord w hu
  obtain ⟨hlog, hview⟩ := MetaStore.apply_eq_ok hi.wf.2 happly
  have hfit' : p.metaStore.walCursor + (MetaStore.opFrame (Env.healthy ord).ord mop).length ≤ Wal.walCapacityBytes := hfit
  have hfits : ∀ rec, p.metaStore.view.RecStep mop rec → rec.Fits :=
    fun rec => hi.fits_of_recStep hfit' hempty
  obtain ⟨rec, hstep, hhas⟩ := View.has_applyLocally hi.records hview ht hfits
  exact ⟨w', s', rec, applyMeta_of_apply happly, hlog.cursor_eq, hstep, hhas⟩

/-- A policy is set. -/
theorem setRedundancy_healthy {rec : InodeRecord} {scheme : RedundancyScheme} (hi : Intact w p)
    (hhas : p.metaStore.view.Has i rec)
    (hfit : p.metaStore.walCursor + (MetaStore.opFrame ord (.setRedundancyScheme i scheme)).length ≤ Wal.walCapacityBytes) :
    ∃ w' s', setRedundancy (Env.healthy ord) i scheme (w, p) = (.ok (), w', { p with metaStore := s' }) ∧
      s'.walCursor = p.metaStore.walCursor + (MetaStore.opFrame ord (.setRedundancyScheme i scheme)).length ∧
      s'.view.Has i { rec with redundancy := scheme } := by
  have hu : p.metaStore.view.applyLocally (.setRedundancyScheme i scheme) =
      .ok (p.metaStore.view.writeInode { rec with redundancy := scheme }) := by
    show (p.metaStore.view.readInode i >>= _) = _
    rw [hhas.readInode_eq]
    rfl
  obtain ⟨w', s', rec', happly, hcursor, hstep, hhas'⟩ := hi.apply_healthy ord hfit (by simp) rfl hu
  cases hstep with
  | setRedundancyScheme hold =>
      obtain rfl := Res.ok.inj (hhas.readInode_eq.symm.trans hold)
      exact ⟨w', s', happly, hcursor, hhas'⟩

/-- A replica loop of one turn. -/
theorem writeReplicas_single {writeOne : World → DiskHandle → Res PoolError Nat × World} {id : DiskId}
    {handle : DiskHandle} {c : Nat} (hid : p.disks[id]? = some handle) (hone : writeOne w handle = (.ok c, w')) :
    writeReplicas writeOne [id] (w, p) =
      (.ok [(id, UInt64.ofNat handle.cursor)], w', p.moveCursor id handle c) := by
  have hturn : writeReplica writeOne id (w, p) =
      (.ok (id, UInt64.ofNat handle.cursor), w', p.moveCursor id handle c) := by
    unfold writeReplica
    dsimp only
    rw [hid]
    dsimp only
    rw [hone]
    rfl
  exact (Action.bind_of_ok hturn).trans rfl

/-- A chunk record on a disk with room for it. -/
theorem appendRecord_of_room (ord : IterOrder) (w : World) {handle : DiskHandle} (record : Segment.Record)
    (hroom : handle.cursor + (Segment.headerLen + record.payload.length) ≤ Segment.segmentSizeBytes) :
    ∃ w', appendRecord (Env.healthy ord) record w handle =
      (.ok (handle.cursor + (Segment.headerLen + record.payload.length)), w') := by
  rw [appendRecord_eq, Segment.length_encode, if_neg (by omega), World.writeSync_healthy]
  exact ⟨_, rfl⟩

/-- A chunk is appended, if its file's policy names one disk and that disk has room. -/
theorem append_healthy {rec : InodeRecord} {chunks : List ChunkPointer} {id : DiskId} {handle : DiskHandle}
    {payload : Bytes} (hi : Intact w p) (hhas : p.metaStore.view.Has i rec) (hmode : rec.mode = .appendOnly)
    (hdata : rec.data = .chunkLog chunks)
    (hplace : p.place ord rec.redundancy (Placement.placementKey i (UInt64.ofNat chunks.length)) = .ok [id])
    (hid : p.disks[id]? = some handle)
    (hroom : handle.cursor + (Segment.headerLen + payload.length) ≤ Segment.segmentSizeBytes)
    (hsize : rec.size.toNat + 2 ^ 32 < 2 ^ 64)
    (hfit : p.metaStore.walCursor + 100 ≤ Wal.walCapacityBytes) :
    ∃ w' s' rec', append (Env.healthy ord) i payload (w, p) = (.ok (), w',
        { p.moveCursor id handle (handle.cursor + (Segment.headerLen + payload.length)) with metaStore := s' }) ∧
      s'.walCursor ≤ p.metaStore.walCursor + 100 ∧ s'.view.Has i rec' ∧ rec'.mode = .appendOnly ∧
      rec'.redundancy = rec.redundancy := by
  have hfind : p.findInode i = .ok rec := findInode_of_getInode (getInode_of_view hhas.getInode_eq)
  have hplan : p.planAppend ord i = .ok (UInt64.ofNat chunks.length, [id]) := by
    unfold planAppend
    rw [hfind, Res.ok_bind, if_neg (by simp [hmode])]
    simp only [hdata, hplace, Res.ok_bind]
    rfl
  generalize hrecord : Segment.Record.new i (UInt64.ofNat chunks.length) payload = record
  have hpayload : record.payload = payload := by rw [← hrecord]; rfl
  obtain ⟨w₁, hone⟩ := appendRecord_of_room ord w record (by rw [hpayload]; exact hroom)
  have hloop := writeReplicas_single hid hone
  rw [hpayload] at hloop
  generalize hchunk : (⟨UInt64.ofNat chunks.length, [(id, UInt64.ofNat handle.cursor)], UInt32.ofNat payload.length,
    record.checksum⟩ : ChunkPointer) = chunk
  have hprepare : prepareAppend (Env.healthy ord) i payload (w, p) = (.ok (.appendChunk i chunk), w₁,
      p.moveCursor id handle (handle.cursor + (Segment.headerLen + payload.length))) := by
    have hreads : Action.reads (fun a : World × Pool => a.2.planAppend ord i) (w, p) =
        (.ok (UInt64.ofNat chunks.length, [id]), w, p) := Action.reads_eq_ok.mpr ⟨hplan, rfl⟩
    refine (Action.bind_of_ok hreads).trans ?_
    dsimp only
    rw [hrecord]
    refine (Action.bind_of_ok hloop).trans ?_
    rw [hchunk]
    rfl
  have hlen : (MetaStore.opFrame ord (.appendChunk i chunk)).length ≤ 100 := by
    rw [MetaStore.opFrame, Wal.length_buildFrame, ← hchunk]
    simp [encodeOp, encodeChunkPointer, encodeReplicaOffsets, encodeReplicaOffset,
      Enc.u8, Enc.u32, Enc.u64, Enc.u128, encodeUuid, Enc.list, Wal.headerLen]
  -- the data phase has moved the cursor over the new record, and keeps everything below it
  have hi₁ : Intact w₁ (p.moveCursor id handle (handle.cursor + (Segment.headerLen + payload.length))) := by
    have hphase : dataPhase (Env.healthy ord) (.append i payload) = some (prepareAppend (Env.healthy ord) i payload) := rfl
    have := hi.phase hphase
    rwa [hprepare] at this
  -- the tables accept the chunk: the record is a chunk log, and its size does not overflow
  have hu : ∃ u, p.metaStore.view.applyLocally (.appendChunk i chunk) = .ok u := by
    have hsmall : chunk.len.toUInt64.toNat < 2 ^ 32 := by
      rw [UInt32.toNat_toUInt64]
      exact chunk.len.toNat_lt
    show ∃ u, (p.metaStore.view.readInode i >>= _) = _
    rw [hhas.readInode_eq, Res.ok_bind, hdata]
    dsimp only
    unfold Res.checkedAdd
    rw [if_pos (by omega)]
    exact ⟨_, rfl⟩
  obtain ⟨u, hu⟩ := hu
  obtain ⟨w', s', rec', happly, hcursor, hstep, hhas'⟩ :=
    hi₁.apply_healthy ord (Nat.le_trans (Nat.add_le_add_left hlen _) hfit) (by simp) rfl hu
  refine ⟨w', s', rec', (Action.bind_of_ok hprepare).trans happly, ?_, hhas', ?_⟩
  · rw [hcursor]
    exact Nat.add_le_add_left hlen _
  · cases hstep with
    | appendChunk hold _ _ =>
        obtain rfl := Res.ok.inj (hhas.readInode_eq.symm.trans hold)
        exact ⟨hmode, rfl⟩

/-- A conversion begins. -/
theorem beginConvert_healthy (ord : IterOrder) {rec : InodeRecord} (hi : Intact w p) (hhas : p.metaStore.view.Has i rec)
    (hmode : rec.mode = .appendOnly) (hfit : p.metaStore.walCursor + 100 ≤ Wal.walCapacityBytes) :
    ∃ w' s', beginConvert (Env.healthy ord) i (w, p) = (.ok (), w', { p with metaStore := s' }) ∧
      s'.walCursor ≤ p.metaStore.walCursor + 100 ∧ s'.view.Has i { rec with mode := .converting } := by
  have hlen : (MetaStore.opFrame ord (.beginConvert i)).length ≤ 100 := by
    rw [MetaStore.opFrame, Wal.length_buildFrame]
    simp [encodeOp, Enc.u8, Enc.u64, Wal.headerLen]
  have hu : p.metaStore.view.applyLocally (.beginConvert i) =
      .ok (p.metaStore.view.writeInode { rec with mode := .converting }) := by
    show (p.metaStore.view.readInode i >>= _) = _
    rw [hhas.readInode_eq, Res.ok_bind, stepMode_beginConvert.mpr ⟨hmode, rfl⟩]
    rfl
  obtain ⟨w', s', rec', happly, hcursor, hstep, hhas'⟩ := hi.apply_healthy ord (by omega) (by simp) rfl hu
  cases hstep with
  | beginConvert hold _ =>
      obtain rfl := Res.ok.inj (hhas.readInode_eq.symm.trans hold)
      exact ⟨w', s', happly, by omega, hhas'⟩

/-- A conversion completes, if its file's policy names one disk. -/
theorem completeConvert_healthy (ord : IterOrder) {rec : InodeRecord} {content : Bytes} {id : DiskId} {handle : DiskHandle}
    (hi : Intact w p) (hhas : p.metaStore.view.Has i rec) (hmode : rec.mode = .converting)
    (hsound : RecordSound (w, p) rec content) (hne : content ≠ [])
    (hplace : p.place ord rec.redundancy (Placement.placementKey i (UInt64.ofNat (2 ^ 64 - 1))) = .ok [id])
    (hid : p.disks[id]? = some handle) (haddr : segmentBaseOffset + handle.cursor + content.length < 2 ^ 64)
    (hfit : p.metaStore.walCursor + 100 ≤ Wal.walCapacityBytes) :
    ∃ w' p', completeConvert (Env.healthy ord) i (w, p) = (.ok (), w', p') ∧
      p'.metaStore.walCursor ≤ p.metaStore.walCursor + 100 := by
  have hfind : p.findInode i = .ok rec := findInode_of_getInode (getInode_of_view hhas.getInode_eq)
  have hplan : p.planCompleteConvert w i = .ok (rec.redundancy, content) := by
    rw [planCompleteConvert_of_mode hfind hmode, readFullContent_of_sound hsound]
    rfl
  -- the extent has an address and a next cursor below `2^64`
  have hone : ∃ w₁, storeExtent (Env.healthy ord) content w handle = (.ok (handle.cursor + content.length), w₁) := by
    unfold storeExtent
    rw [if_neg (by omega), World.writeSync_healthy]
    dsimp only
    rw [if_neg (by omega)]
    exact ⟨_, rfl⟩
  obtain ⟨w₁, hone⟩ := hone
  have hloop := writeReplicas_single hid hone
  generalize hextent : (⟨0, UInt32.ofNat content.length, [(id, UInt64.ofNat handle.cursor)], Crc32c.checksum content⟩ :
    Extent) = extent
  have hprepare : prepareCompleteConvert (Env.healthy ord) i (w, p) = (.ok (.completeConvert i [extent]), w₁,
      p.moveCursor id handle (handle.cursor + content.length)) := by
    have hreads : Action.reads (fun a : World × Pool => a.2.planCompleteConvert a.1 i) (w, p) =
        (.ok (rec.redundancy, content), w, p) := Action.reads_eq_ok.mpr ⟨hplan, rfl⟩
    have hplaced : Action.reads (fun a : World × Pool => a.2.place ord rec.redundancy
        (Placement.placementKey i (UInt64.ofNat (2 ^ 64 - 1)))) (w, p) = (.ok [id], w, p) :=
      Action.reads_eq_ok.mpr ⟨hplace, rfl⟩
    have hwhole : writeWholeFileExtent (Env.healthy ord) i rec.redundancy 0 content (w, p) = (.ok [extent], w₁,
        p.moveCursor id handle (handle.cursor + content.length)) := by
      unfold writeWholeFileExtent
      rw [if_neg hne]
      refine (Action.bind_of_ok hplaced).trans ?_
      refine (Action.bind_of_ok hloop).trans ?_
      rw [hextent]
      rfl
    refine (Action.bind_of_ok hreads).trans ?_
    dsimp only
    exact (Action.bind_of_ok hwhole).trans rfl
  have hlen : (MetaStore.opFrame ord (.completeConvert i [extent])).length ≤ 100 := by
    rw [MetaStore.opFrame, Wal.length_buildFrame, ← hextent]
    simp [encodeOp, encodeExtent, encodeReplicaOffsets, encodeReplicaOffset, Enc.u8, Enc.u32, Enc.u64, Enc.u128,
      encodeUuid, Enc.list, Wal.headerLen]
  -- the data phase has moved the cursor over the extent, and keeps everything below it
  have hi₁ : Intact w₁ (p.moveCursor id handle (handle.cursor + content.length)) := by
    have hphase : dataPhase (Env.healthy ord) (.completeConvert i) =
        some (prepareCompleteConvert (Env.healthy ord) i) := rfl
    have := hi.phase hphase
    rwa [hprepare] at this
  have hu : p.metaStore.view.applyLocally (.completeConvert i [extent]) =
      .ok (p.metaStore.view.writeInode { rec with mode := .writable, data := .extents [extent] }) := by
    show (p.metaStore.view.readInode i >>= _) = _
    rw [hhas.readInode_eq, Res.ok_bind, stepMode_completeConvert.mpr ⟨hmode, rfl⟩]
    rfl
  obtain ⟨w', s', rec', happly, hcursor, -⟩ :=
    hi₁.apply_healthy ord (Nat.le_trans (Nat.add_le_add_left hlen _) hfit) (by simp) rfl hu
  refine ⟨w', _, (Action.bind_of_ok hprepare).trans happly, ?_⟩
  show s'.walCursor ≤ _
  rw [hcursor]
  exact Nat.add_le_add_left hlen _

end Tartine.Pool
