import Tartine.Meta.PoolContent

/-!
# `Meta.PoolReopen` — the cursors a reopened pool installs

A disk's cursor is not stored anywhere: `open` scans the data region for chunk records and resumes where they stop.
As long as nothing but chunk records was ever written there, the scan finds the live cursor again (`Scannable`), and
every replica the replayed log names lies below it. `complete_convert` and `write` break this: `write_whole_file_extent`
writes a file's bytes without a header, the scan stops in front of them, and the reopened pool hands their space out
again.

* `Scannable.step` — operations that store no extent keep the disks scannable;
* `replay_below` — the replayed table names only replicas the log named;
* `reopen_keeps_space` — so a pool that never stored an extent reopens with every replica below its cursors;
* `reopen_loses_space` — and one that did need not.
-/

namespace Tartine.Pool

open Basis Codec

/-! ## Replicas below the cursors -/

/-- Every replica ends, `len` bytes past its offset, at or below the cursor of its disk. -/
def ReplicasBelow (p : Pool) (len : Nat) (replicas : List (DiskId × UInt64)) : Prop :=
  ∀ r ∈ replicas, ∃ h : DiskHandle, p.disks[r.1]? = some h ∧ r.2.toNat + len ≤ h.cursor

def ChunkBelow (p : Pool) (chunk : ChunkPointer) : Prop :=
  ReplicasBelow p (Segment.headerLen + chunk.len.toNat) chunk.replicas

def ExtentBelow (p : Pool) (x : Extent) : Prop := ReplicasBelow p x.len.toNat x.replicas

/-- Everything a locator names lies below the cursors. -/
def LocatorBelow (p : Pool) : DataLocator → Prop
  | .chunkLog chunks => ∀ c ∈ chunks, ChunkBelow p c
  | .extents xs      => ∀ x ∈ xs, ExtentBelow p x

/-- What an operation writes into the table lies below the cursors. A new file has no data at all. -/
def OpBelow (p : Pool) : MetaOp → Prop
  | .createInode rec           => rec.data = .chunkLog [] ∨ rec.data = .extents []
  | .appendChunk _ chunk       => ChunkBelow p chunk
  | .completeConvert _ extents => ∀ x ∈ extents, ExtentBelow p x
  | .updateExtents _ extents   => ∀ x ∈ extents, ExtentBelow p x
  | _                          => True

/-- Cursors only grow. -/
def Grows (p p' : Pool) : Prop :=
  ∀ (id : DiskId) (h : DiskHandle), p.disks[id]? = some h →
    ∃ h' : DiskHandle, p'.disks[id]? = some h' ∧ h.cursor ≤ h'.cursor

theorem Retains.grows {w w' : World} {p p' : Pool} (h : Retains (w, p) (w', p')) : Grows p p' := by
  intro id handle hid
  obtain ⟨h', hid', -, hcur, -⟩ := h id handle hid
  exact ⟨h', hid', hcur⟩

variable {p p' : Pool}

theorem ReplicasBelow.mono {len : Nat} {replicas : List (DiskId × UInt64)} (h : ReplicasBelow p len replicas)
    (hg : Grows p p') : ReplicasBelow p' len replicas := by
  intro r hr
  obtain ⟨handle, hid, hend⟩ := h r hr
  obtain ⟨h', hid', hcur⟩ := hg _ _ hid
  exact ⟨h', hid', by omega⟩

theorem LocatorBelow.mono {data : DataLocator} (h : LocatorBelow p data) (hg : Grows p p') :
    LocatorBelow p' data := by
  cases data with
  | chunkLog chunks => exact fun c hc => (h c hc).mono hg
  | extents xs => exact fun x hx => (h x hx).mono hg

theorem OpBelow.mono {op : MetaOp} (h : OpBelow p op) (hg : Grows p p') : OpBelow p' op := by
  cases op with
  | createInode rec => exact h
  | appendChunk inode chunk => exact ReplicasBelow.mono h hg
  | completeConvert inode xs => exact fun x hx => (h x hx).mono hg
  | updateExtents inode xs => exact fun x hx => (h x hx).mono hg
  | link parent name child => trivial
  | unlink parent name => trivial
  | beginConvert inode => trivial
  | setRedundancyScheme inode scheme => trivial
  | poolMapChange pm => trivial
  | metaGroupChange mg => trivial

/-! ## Replaying a log of such operations -/

/-- A log entry that decodes to an operation below the cursors. -/
def EntryBelow (p : Pool) (x : Bytes) : Prop := ∃ ord op, x = encodeOp ord op ∧ op.Fits ∧ OpBelow p op

/-- A record below the cursors with at most `k` chunks. -/
def RecordBelow (p : Pool) (k : Nat) (rec : InodeRecord) : Prop := LocatorBelow p rec.data ∧ rec.chunkCount ≤ k

/-- Below the cursors, as a property of replica lists. -/
theorem recordBelow_iff {k : Nat} {rec : InodeRecord} : RecordBelow p k rec ↔
    rec.Lists (fun headerLen len => ReplicasBelow p (headerLen + len)) k := by
  unfold RecordBelow InodeRecord.Lists
  cases rec.data with
  | chunkLog chunks => exact Iff.rfl
  | extents xs =>
      simp only [LocatorBelow, ExtentBelow, DataLocator.AllReplicas, Nat.zero_add]

/-- The record an operation leaves behind. -/
theorem recStep_below {v : View} {op : MetaOp} {rec : InodeRecord} {k : Nat} (hk : k + 1 < 2 ^ 32)
    (hv : v.Each (RecordBelow p k)) (hfits : op.Fits) (hop : OpBelow p op) (hstep : v.RecStep op rec) :
    rec.Fits ∧ RecordBelow p (k + 1) rec := by
  have hop' : op.AllReplicas (fun headerLen len => ReplicasBelow p (headerLen + len)) := by
    cases op with
    | createInode rec =>
        rcases hop with hdata | hdata
        · simp [MetaOp.AllReplicas, hdata, DataLocator.AllReplicas]
        · simp [MetaOp.AllReplicas, hdata, DataLocator.AllReplicas]
    | appendChunk inode chunk => exact hop
    | completeConvert inode xs =>
        intro x hx
        show ReplicasBelow p (0 + x.len.toNat) x.replicas
        rw [Nat.zero_add]
        exact hop x hx
    | updateExtents inode xs =>
        intro x hx
        show ReplicasBelow p (0 + x.len.toNat) x.replicas
        rw [Nat.zero_add]
        exact hop x hx
    | link parent name child => trivial
    | unlink parent name => trivial
    | beginConvert inode => trivial
    | setRedundancyScheme inode scheme => trivial
    | poolMapChange pm => trivial
    | metaGroupChange mg => trivial
  have hnew : ∀ rec, op = .createInode rec → rec.chunkCount = 0 := by
    rintro rec rfl
    unfold InodeRecord.chunkCount
    rcases hop with hdata | hdata
    · rw [hdata]
      exact List.length_nil
    · rw [hdata]
  obtain ⟨hfits', hlists⟩ := hstep.allReplicas hk (hv.mono (fun _ h => recordBelow_iff.mp h)) hfits hop' hnew
  exact ⟨hfits', recordBelow_iff.mpr hlists⟩

/-- **Replay lemma.** A log whose entries are below the cursors replays to a table whose records are. -/
theorem replay_below {ps : List Bytes} {v : View} (hlen : ps.length < 2 ^ 32) (hps : ∀ x ∈ ps, EntryBelow p x)
    (h : View.empty.replay ps = .ok v) : v.Each (RecordBelow p ps.length) := by
  induction ps using List.reverseRecOn generalizing v with
  | nil =>
      obtain rfl := Res.ok.inj h
      exact View.each_empty
  | append_singleton ps x ih =>
      rw [List.length_append, List.length_singleton] at hlen ⊢
      rw [View.replay_snoc] at h
      obtain ⟨u, hu, hx⟩ := Res.bind_eq_ok.mp h
      obtain ⟨ord, op, rfl, hfits, hop⟩ := hps x (List.mem_append_right _ (List.mem_singleton.mpr rfl))
      rw [View.replayEntry_encodeOp _ _ hfits] at hx
      have hv := ih (by omega) (fun y hy => hps y (List.mem_append_left _ hy)) hu
      refine hv.applyLocally hx ?_ (fun rec hstep => recStep_below hlen hv hfits hop hstep)
      exact fun rec hrec _ => ⟨hrec.1, Nat.le_succ_of_le hrec.2⟩

/-! ## Disks that can be scanned -/

/-- Everything a reopen needs to find: each disk's data region carries chunk records up to its cursor and nothing after
    it, and the log carries operations whose replicas are below the cursors. -/
structure Scannable (n : Nat) (w : World) (p : Pool) : Prop where
  wf : MetaWf p.metaStore
  primaryDisk_eq : p.metaStore.replicator.primaryDisk = 0
  handles : HandlesOk p
  disks_eq : ∀ id : DiskId,
    (p.disks[id]?).map DiskHandle.disk = ((handlesOf n (fun _ => 0))[id]?).map DiskHandle.disk
  segments : ∀ (id : DiskId) (h : DiskHandle), p.disks[id]? = some h →
    ∃ rs, Segment.Carries (w.disk h.disk) segmentBaseOffset rs h.cursor
  log : ∃ ps, Wal.Carries (w.disk 0) ps p.metaStore.walCursor ∧ ∀ x ∈ ps, EntryBelow p x

variable {n : Nat} {ord : IterOrder} {w w' : World} {s' : MetaStore}

/-- **Writing a chunk record at a cursor** keeps the disks scannable. -/
theorem Scannable.appendRecord {id : DiskId} {handle : DiskHandle} {record : Segment.Record}
    (hs : Scannable n w p) (hid : p.disks[id]? = some handle)
    (hroom : handle.cursor + (Segment.encode record).length ≤ Segment.segmentSizeBytes)
    (hsum : record.checksum = Crc32c.checksum record.payload)
    (hdisk : w'.disk handle.disk =
      (w.disk handle.disk).writeAt (segmentBaseOffset + handle.cursor) (Segment.encode record))
    (hother : ∀ x, x ≠ handle.disk → w'.disk x = w.disk x) :
    Scannable n w' (p.moveCursor id handle (handle.cursor + (Segment.encode record).length)) := by
  have hgrow : Grows p (p.moveCursor id handle (handle.cursor + (Segment.encode record).length)) :=
    (retains_moveCursor (w := w) hid (Nat.le_add_right _ _)).grows
  refine ⟨hs.wf, hs.primaryDisk_eq, hs.handles.moveCursor hid, ?_, ?_, ?_⟩
  · intro id'
    rw [moveCursor_disks, ← hs.disks_eq id']
    split
    · rename_i hsame
      rw [← hsame, hid]
      rfl
    · rfl
  · intro id' h' hid'
    rw [moveCursor_disks] at hid'
    split at hid'
    · obtain rfl := Option.some.inj hid'
      obtain ⟨rs, hrs⟩ := hs.segments id handle hid
      refine ⟨rs ++ [record], ?_⟩
      show Segment.Carries (w'.disk handle.disk) _ _ _
      rw [hdisk]
      exact hrs.snoc hroom hsum
    · rename_i hne
      -- another id, so another disk
      have hdiff : h'.disk ≠ handle.disk := by
        intro hsame
        exact hne (by rw [hs.handles id handle hid, hs.handles id' h' hid', hsame])
      rw [hother _ hdiff]
      exact hs.segments id' h' hid'
  · obtain ⟨ps, hps, hbelow⟩ := hs.log
    refine ⟨ps, ?_, ?_⟩
    · show Wal.Carries (w'.disk 0) ps p.metaStore.walCursor
      by_cases hzero : 0 = handle.disk
      · rw [hzero, hdisk, ← hzero]
        have hbase := walCapacity_le_segmentBase
        exact hps.writeAt (by omega)
      · rw [hother _ hzero]
        exact hps
    · intro x hx
      obtain ⟨ord, op, rfl, hfits, hop⟩ := hbelow x hx
      exact ⟨ord, op, rfl, hfits, hop.mono hgrow⟩

/-- On healthy disks a chunk record is refused for lack of room, or written. -/
theorem appendRecord_healthy (ord : IterOrder) (record : Segment.Record) (w : World) (h : DiskHandle) :
    Pool.appendRecord (Env.healthy ord) record w h = (.err (.io .segmentFull), w) ∨
      (h.cursor + (Segment.encode record).length ≤ Segment.segmentSizeBytes ∧
        Pool.appendRecord (Env.healthy ord) record w h = (.ok (h.cursor + (Segment.encode record).length),
          { w.setDisk h.disk ((w.disk h.disk).writeAt (segmentBaseOffset + h.cursor) (Segment.encode record)) with
            clock := w.clock + 2 })) := by
  rw [appendRecord_eq]
  split
  · exact Or.inl rfl
  · rename_i hroom
    refine Or.inr ⟨?_, by rw [World.writeSync_healthy]⟩
    rw [Segment.length_encode] at hroom ⊢
    unfold Segment.headerLen at hroom ⊢
    omega

/-- What the data phase of `append` keeps. -/
def KeepsScan (n : Nat) (a b : World × Pool) : Prop := Scannable n a.1 a.2 → Scannable n b.1 b.2

/-- **Step lemma** of the replica loop. -/
theorem keepsScan_replica (n : Nat) (ord : IterOrder) (inode : InodeId) (chunkSeq : UInt64) (payload : Bytes)
    (id : DiskId) : Action.Keeps (KeepsScan n)
      (writeReplica (Pool.appendRecord (Env.healthy ord) (Segment.Record.new inode chunkSeq payload)) id) := by
  rintro ⟨w, p⟩ hs
  unfold writeReplica
  dsimp only
  split
  · exact hs
  · rename_i handle hid
    rcases appendRecord_healthy ord (Segment.Record.new inode chunkSeq payload) w handle with hfull | ⟨hroom, hok⟩
    · rw [hfull]
      exact hs
    · rw [hok]
      exact Scannable.appendRecord hs hid hroom rfl World.setDisk_self (fun x hx => World.setDisk_of_ne hx)

theorem keepsScan_prepareAppend (n : Nat) (ord : IterOrder) (inode : InodeId) (payload : Bytes) :
    Action.Keeps (KeepsScan n) (prepareAppend (Env.healthy ord) inode payload) :=
  keeps_appendPhase (fun _ hs => hs) (fun _ _ _ h h' hs => h' (h hs))
    (fun chunkSeq id => keepsScan_replica n ord inode chunkSeq payload id)

/-- **A metadata operation** keeps the disks scannable, whether or not the tables accept it. -/
theorem Scannable.apply {op : MetaOp} {res : Res MetaStoreError Unit} (hs : Scannable n w p)
    (h : p.metaStore.apply (Env.healthy ord) w op = (res, w', s')) (hres : res ≠ .panic)
    (hfit : p.metaStore.walCursor + (MetaStore.opFrame ord op).length ≤ Wal.walCapacityBytes) (hop : OpBelow p op) :
    Scannable n w' { p with metaStore := s' } := by
  have hlog := MetaStore.logged_of_healthy hs.wf.2 h hres
  refine ⟨hs.wf.apply h, hlog.primaryDisk_eq.trans hs.primaryDisk_eq, hs.handles, hs.disks_eq, ?_, ?_⟩
  · intro id handle hid
    obtain ⟨rs, hrs⟩ := hs.segments id handle hid
    refine ⟨rs, ?_⟩
    have hbase := walCapacity_le_segmentBase
    rcases MetaStore.apply_disk hs.wf.2 h handle.disk with hsame | ⟨buf, hlen, hw⟩
    · rw [hsame]
      exact hrs
    · rw [hw, hs.wf.1]
      have hlen' : buf.length ≤ (MetaStore.opFrame ord op).length := hlen
      exact hrs.writeAt_before (by omega)
  · obtain ⟨ps, hps, hbelow⟩ := hs.log
    refine ⟨ps ++ [encodeOp ord op], ?_, ?_⟩
    · show Wal.Carries (w'.disk 0) _ s'.walCursor
      have hdisk := hlog.disk_eq
      rw [hs.primaryDisk_eq, hs.wf.1, Nat.zero_add] at hdisk
      rw [hdisk, hlog.cursor_eq]
      exact hps.snoc hfit
    · intro x hx
      rcases List.mem_append.mp hx with hold | hnew
      · exact hbelow x hold
      · obtain rfl := List.mem_singleton.mp hnew
        exact ⟨ord, op, rfl, MetaStore.fits_of_frame hfit, hop⟩

theorem Scannable.alloc {id : InodeId} (hs : Scannable n w p) (h : p.metaStore.allocInode = .ok (id, s')) :
    Scannable n w { p with metaStore := s' } := by
  obtain ⟨next, -, hs'⟩ := Res.bind_eq_ok.mp h
  obtain ⟨rfl, rfl⟩ := Prod.mk.inj (Res.ok.inj hs')
  exact ⟨hs.wf, hs.primaryDisk_eq, hs.handles, hs.disks_eq, hs.segments, hs.log⟩

/-! ## Operations that store no extent -/

/-- A rewrite that gets as far as writing bytes to some disk: there is content, and it was placed. -/
def StoresExtent (env : Env) (p : Pool) (inode : InodeId) (planned : Res PoolError (RedundancyScheme × Bytes)) : Prop :=
  ∃ redundancy content ids, planned = .ok (redundancy, content) ∧ content ≠ [] ∧
    p.place env.ord redundancy (Placement.placementKey inode (UInt64.ofNat (2 ^ 64 - 1))) = .ok ids ∧ ids ≠ []

/-- The event stores a file's bytes as an extent. -/
def Event.StoresExtent : Event → Prop
  | .call env w p (.completeConvert inode) _ => Pool.StoresExtent env p inode (p.planCompleteConvert w inode)
  | .call env w p (.write inode offset data) _ => Pool.StoresExtent env p inode (p.planWrite w inode offset data)
  | _ => False

/-- Without an extent to store, the data phase of a rewrite writes nothing. -/
theorem prepareExtents_of_not_stores {env : Env} {inode : InodeId}
    {plan : World → Pool → Res PoolError (RedundancyScheme × Bytes)} {mkOp : List Extent → MetaOp}
    {r : Res PoolError MetaOp} (hno : ¬StoresExtent env p inode (plan w p))
    (h : prepareExtents env inode plan mkOp (w, p) = (r, w', p')) :
    w' = w ∧ p' = p ∧ ∀ op, r = .ok op → ∃ xs, op = mkOp xs ∧ ∀ x ∈ xs, x.replicas = [] := by
  have hwhole : ∀ redundancy content s q, plan w p = .ok (redundancy, content) →
      writeWholeFileExtent env inode redundancy 0 content (w, p) = (q, s) →
      s = (w, p) ∧ ∀ xs, q = .ok xs → ∀ x ∈ xs, x.replicas = [] := by
    intro redundancy content s q hplan hw
    unfold writeWholeFileExtent at hw
    split at hw
    · obtain ⟨rfl, rfl⟩ := Prod.mk.inj hw
      refine ⟨rfl, fun xs hxs => ?_⟩
      obtain rfl := Res.ok.inj hxs
      simp
    · rename_i hne
      rcases Action.bind_cases hw with ⟨ids, s₁, hreads, hw⟩ | ⟨e, hreads, rfl⟩ | ⟨hreads, rfl⟩
      · obtain ⟨hplace, rfl⟩ := Action.reads_eq_ok.mp hreads
        -- placed without a single disk: the loop has nothing to do
        obtain rfl : ids = [] := by
          by_contra hids
          exact hno ⟨redundancy, content, ids, hplan, hne, hplace, hids⟩
        obtain ⟨rfl, rfl⟩ := Prod.mk.inj hw
        refine ⟨rfl, fun xs hxs => ?_⟩
        obtain rfl := Res.ok.inj hxs
        simp
      · exact ⟨(Prod.mk.inj hreads).2.symm, fun xs hxs => by cases hxs⟩
      · exact ⟨(Prod.mk.inj hreads).2.symm, fun xs hxs => by cases hxs⟩
  rcases Action.bind_cases h with ⟨⟨redundancy, content⟩, s₁, hreads, h⟩ | ⟨e, hreads, rfl⟩ | ⟨hreads, rfl⟩
  · obtain ⟨hplan, rfl⟩ := Action.reads_eq_ok.mp hreads
    rcases Action.bind_cases h with ⟨xs, s₂, hx, hpure⟩ | ⟨e, hx, rfl⟩ | ⟨hx, rfl⟩
    · obtain ⟨rfl, hxs⟩ := hwhole _ _ _ _ hplan hx
      obtain ⟨rfl, hstate⟩ := Prod.mk.inj hpure
      obtain ⟨rfl, rfl⟩ := Prod.mk.inj hstate
      refine ⟨rfl, rfl, fun op hop => ?_⟩
      obtain rfl := Res.ok.inj hop
      exact ⟨xs, rfl, hxs xs rfl⟩
    · obtain ⟨rfl, rfl⟩ := Prod.mk.inj (hwhole _ _ _ _ hplan hx).1
      exact ⟨rfl, rfl, fun op hop => by cases hop⟩
    · obtain ⟨rfl, rfl⟩ := Prod.mk.inj (hwhole _ _ _ _ hplan hx).1
      exact ⟨rfl, rfl, fun op hop => by cases hop⟩
  · obtain ⟨rfl, rfl⟩ := Prod.mk.inj (Prod.mk.inj hreads).2
    exact ⟨rfl, rfl, fun op hop => by cases hop⟩
  · obtain ⟨rfl, rfl⟩ := Prod.mk.inj (Prod.mk.inj hreads).2
    exact ⟨rfl, rfl, fun op hop => by cases hop⟩

/-- **The data phase** of a call that stores no extent. -/
theorem Scannable.phase {op : PoolOp} {x : PoolM MetaOp} {res : Res PoolError PoolVal} (hs : Scannable n w p)
    (hno : ¬(Event.call (Env.healthy ord) w p op res).StoresExtent) (hop : dataPhase (Env.healthy ord) op = some x) :
    Scannable n (x (w, p)).2.1 (x (w, p)).2.2 := by
  have hextents : ∀ {inode : InodeId} {plan : World → Pool → Res PoolError (RedundancyScheme × Bytes)}
      {mkOp : List Extent → MetaOp}, ¬StoresExtent (Env.healthy ord) p inode (plan w p) →
      Scannable n (prepareExtents (Env.healthy ord) inode plan mkOp (w, p)).2.1
        (prepareExtents (Env.healthy ord) inode plan mkOp (w, p)).2.2 := by
    intro inode plan mkOp hno
    generalize hx : prepareExtents (Env.healthy ord) inode plan mkOp (w, p) = out
    obtain ⟨q, w₁, p₁⟩ := out
    obtain ⟨rfl, rfl, -⟩ := prepareExtents_of_not_stores hno hx
    exact hs
  cases dataPhase_cases hop with
  | @append inode payload =>
      exact keepsScan_prepareAppend n ord inode payload (w, p) hs
  | completeConvert =>
      exact hextents hno
  | write =>
      exact hextents hno

/-- What such a call hands to the log names replicas below the cursors. -/
theorem Hands.opBelow {env : Env} {op : PoolOp} {mop : MetaOp} {w₁ : World} {p₁ : Pool} {res : Res PoolError PoolVal}
    (hh : Hands env w p op mop w₁ p₁) (hok : HandlesOk p) (hno : ¬(Event.call env w p op res).StoresExtent) :
    OpBelow p₁ mop := by
  have hextents : ∀ {inode : InodeId} {plan : World → Pool → Res PoolError (RedundancyScheme × Bytes)}
      {mkOp : List Extent → MetaOp}, prepareExtents env inode plan mkOp (w, p) = (.ok mop, w₁, p₁) →
      ¬StoresExtent env p inode (plan w p) → ∃ xs, mop = mkOp xs ∧ ∀ x ∈ xs, ExtentBelow p₁ x := by
    intro inode plan mkOp hx hno
    obtain ⟨-, -, hxs⟩ := prepareExtents_of_not_stores hno hx
    obtain ⟨xs, rfl, hempty⟩ := hxs mop rfl
    refine ⟨xs, rfl, fun x hx r hr => ?_⟩
    rw [hempty x hx] at hr
    cases hr
  cases hh with
  | phase hop hx =>
      cases dataPhase_cases hop with
      | @append _ payload =>
          obtain ⟨rec, chunk, -, rfl, hlen, hstored, -⟩ := prepareAppend_eq_ok hok hx
          intro r hr
          obtain ⟨handle, hid, hend, -⟩ := hstored r hr
          refine ⟨handle, hid, ?_⟩
          have hle : chunk.len.toNat ≤ payload.length := by
            rw [hlen, UInt32.toNat_ofNat']
            exact Nat.mod_le _ _
          omega
      | completeConvert =>
          obtain ⟨xs, rfl, hxs⟩ := hextents hx hno
          exact hxs
      | write =>
          obtain ⟨xs, rfl, hxs⟩ := hextents hx hno
          exact hxs
  | beginConvert => trivial
  | setRedundancy => trivial
  | unlink => trivial
  | create halloc => exact Or.inl rfl
  | link halloc hcreate => trivial

/-- **Step lemma.** An operation on healthy disks that stores no extent keeps the disks scannable. -/
theorem Scannable.step {op : PoolOp} {res : Res PoolError PoolVal} (hs : Scannable n w p)
    (hno : ¬(Event.call (Env.healthy ord) w p op res).StoresExtent)
    (hfit : ∀ c ∈ p.metaCalls (Env.healthy ord) w op, c.Fits)
    (h : Pool.step (Env.healthy ord) op (w, p) = (res, w', p')) (hres : res ≠ .panic) : Scannable n w' p' := by
  refine step_rule hs (fun _ hop => hs.phase hno hop) (fun _ _ halloc => hs.alloc halloc) ?_ h hres
  intro mop w₁ p₁ q w₂ s₂ hh hs₁ happly hq
  exact hs₁.apply happly hq (hfit _ hh.mem_metaCalls) (hh.opBelow hs.handles hno)

/-! ## Runs, and what a reopen finds -/

theorem scannable_created (w₀ : World) {n : Nat} (hn : n ≠ 0) (classes : List DiskClass) :
    Scannable n (createDisks w₀ n) ⟨poolMapOf classes, handlesOf n (fun _ => 0), freshStore n⟩ := by
  have hblank : ∀ r i, r < n → ((createDisks w₀ n).disk r).bytes i = 0 := by
    intro r i hr
    show (if r < n then FileDisk.create diskFileCapacityBytes else w₀.disk r).bytes i = 0
    rw [if_pos hr]
    rfl
  refine ⟨metaWf_open (openStore_createDisks w₀ hn), rfl, fun _ _ hid => (handlesOf_eq_some hid).1, fun _ => rfl, ?_,
    [], Wal.carries_nil (fun i => hblank 0 i (Nat.pos_of_ne_zero hn)), by simp⟩
  intro id h hid
  obtain ⟨-, hlt, hcur⟩ := handlesOf_eq_some hid
  rw [hcur]
  exact ⟨[], Segment.carries_nil (fun i => hblank _ i hlt)⟩

/-- **Run lemma.** A session that stores no extent leaves disks that can be scanned. -/
theorem Run.scannable {events : List Event} (hrun : Run n w p events) (hsession : ∀ e ∈ events, e.InSession)
    (hraw : ∀ e ∈ events, ¬e.StoresExtent) (hfits : LogFits events) : Scannable n w p := by
  induction hrun with
  | @format w₀ w p classes now env h =>
      obtain ⟨ord, rfl⟩ := Env.eq_healthy (hsession _ (List.mem_singleton.mpr rfl))
      obtain ⟨hn, -, s, happly, rfl, hcall⟩ := format_eq_ok h
      have hmem := List.mem_flatMap.mpr ⟨_, List.mem_singleton.mpr rfl, hcall⟩
      exact (scannable_created w₀ hn classes).apply happly (by simp) (hfits _ hmem) (Or.inr rfl)
  | call env op hrun h hres ih =>
      obtain ⟨hfits₀, hfits₁⟩ := hfits.snoc
      obtain ⟨ord, rfl⟩ := Env.eq_healthy (hsession _ (List.mem_append_right _ (List.mem_singleton.mpr rfl)))
      have hs := ih (fun e he => hsession e (List.mem_append_left _ he))
        (fun e he => hraw e (List.mem_append_left _ he)) hfits₀
      exact hs.step (hraw _ (List.mem_append_right _ (List.mem_singleton.mpr rfl))) hfits₁ h hres
  | reopen hrun h hm ih => exact (hsession _ (List.mem_append_right _ (List.mem_singleton.mpr rfl))).elim

/-- **The scan finds every cursor again.** -/
theorem Scannable.grows (hs : Scannable n w p) {classes : List DiskClass} (h : openWithClasses w n classes = .ok p') :
    Grows p p' := by
  obtain ⟨-, -, s, -, rfl⟩ := openWithClasses_eq_ok h
  intro id handle hid
  have hsame := hs.disks_eq id
  rw [hid] at hsame
  obtain ⟨h₀, hid₀, hdisk⟩ := Option.map_eq_some_iff.mp hsame.symm
  obtain ⟨rs, hrs⟩ := hs.segments id handle hid
  refine ⟨⟨h₀.disk, (Segment.scan (w.disk h₀.disk) segmentBaseOffset).resumeAt⟩, ?_, ?_⟩
  · show (handlesOf n _)[id]? = _
    rw [handlesOf_cursor n _ (fun _ => 0), hid₀]
    rfl
  · show handle.cursor ≤ (Segment.scan (w.disk h₀.disk) segmentBaseOffset).resumeAt
    rw [hdisk, hrs.scan_eq]

/-- Every replica the table names ends at or below the cursor of its disk. -/
def SpaceInUseBelow (p : Pool) : Prop := ∀ i rec, p.getInode i = .ok (some rec) → LocatorBelow p rec.data

theorem Scannable.spaceInUse (hs : Scannable n w p) {classes : List DiskClass}
    (h : openWithClasses w n classes = .ok p') : p'.SpaceInUseBelow := by
  obtain ⟨-, -, s, hopen, hp'⟩ := openWithClasses_eq_ok h
  obtain ⟨ps, hps, hbelow⟩ := hs.log
  have hscan : (Wal.scan (w.disk 0) 0).entries = ps := by rw [hps.scan_eq]
  obtain ⟨v, hv, hstore⟩ := Res.bind_eq_ok.mp hopen
  rw [hscan] at hv
  have hlen : ps.length < 2 ^ 32 := by
    have hle := hps.chain.length_le Wal.probe_bounded
    have hend := hps.chain.end_le Wal.probe_bounded (Nat.zero_le _)
    have := Wal.walCapacityBytes_lt
    omega
  intro i rec hget
  have hview : p'.metaStore.view = v := by rw [hp', ← Res.ok.inj hstore]
  have hget' : v.getInode i = .ok (some rec) := by
    rw [← hview]
    exact Res.mapErr_eq_ok.mp hget
  exact ((replay_below hlen hbelow hv).of_getInode hget').2.1.mono (hs.grows h)

/-- The states of a pool after more operations, whatever fails, as long as their frames fit the log's region. -/
inductive Later (a : World × Pool) : World × Pool → Prop where
  | refl : Later a a
  | step {w p res b} (env : Env) (op : PoolOp) (h : Later a (w, p)) (hfit : ∀ c ∈ p.metaCalls env w op, c.Fits)
      (hstep : step env op (w, p) = (res, b)) (hres : res ≠ .panic) : Later a b

/-- Whatever lies below the cursors of a pool stays there. -/
theorem Later.retains {a b : World × Pool} (h : Later a b) (hok : HandlesOk a.2) (hwf : MetaWf a.2.metaStore) :
    HandlesOk b.2 ∧ MetaWf b.2.metaStore ∧ Retains a b := by
  induction h with
  | refl => exact ⟨hok, hwf, retains_refl a⟩
  | @step w p res b env op h hfit hstep hres ih =>
      obtain ⟨hok₁, hwf₁, hret₁⟩ := ih
      obtain ⟨hok₂, hret₂⟩ := keepsData_step hwf₁ hfit hstep hres hok₁
      exact ⟨hok₂, hwf₁.call hstep hres, hret₁.trans hret₂⟩

/-- **Reopening hands out no space in use**, after any session on healthy disks that stored no extent and kept the log
    within its region: every replica the recovered table names ends at or below the cursor installed for its disk, and
    no later operation changes a byte below the cursors. -/
theorem reopen_keeps_space {events : List Event} {classes : List DiskClass} (hrun : Run n w p events)
    (hsession : ∀ e ∈ events, e.InSession) (hraw : ∀ e ∈ events, ¬e.StoresExtent) (hfits : LogFits events)
    (hopen : openWithClasses w n classes = .ok p') :
    p'.SpaceInUseBelow ∧ ∀ b, Later (w, p') b → Retains (w, p') b := by
  refine ⟨(hrun.scannable hsession hraw hfits).spaceInUse hopen, ?_⟩
  intro b hlater
  obtain ⟨-, -, s, hstore, rfl⟩ := openWithClasses_eq_ok hopen
  refine (hlater.retains ?_ (metaWf_open hstore)).2.2
  intro id h hid
  exact (handlesOf_eq_some hid).1

/-! ## Concrete sessions -/

/-- The same file is then converted. -/
def convertSession : List Event × World × Pool :=
  play (Env.healthy MetaStore.listOrder) (sampleOps.take 4) onDisk

instance (p : Pool) (len : Nat) (replicas : List (DiskId × UInt64)) : Decidable (ReplicasBelow p len replicas) :=
  decidable_of_iff (∀ r ∈ replicas, (p.disks[r.1]?).any (fun h => decide (r.2.toNat + len ≤ h.cursor)) = true) (by
    simp only [ReplicasBelow, Option.any_eq_true, decide_eq_true_eq])

instance (p : Pool) : DecidablePred (LocatorBelow p)
  | .chunkLog chunks => inferInstanceAs (Decidable (∀ c ∈ chunks, ReplicasBelow p _ c.replicas))
  | .extents xs      => inferInstanceAs (Decidable (∀ x ∈ xs, ReplicasBelow p _ x.replicas))

/-- After a reopen: the number of chunks of inode `i`, and whether all its replicas are below the cursors. -/
def keptSpace (i : InodeId) : Res PoolError Pool → Option (Nat × Bool)
  | .ok p =>
      match p.getInode i with
      | .ok (some rec) => some (rec.chunkCount, decide (LocatorBelow p rec.data))
      | _              => none
  | _ => none

theorem keptSpace_eq_some {i : InodeId} {r : Res PoolError Pool} {k : Nat} {b : Bool}
    (h : keptSpace i r = some (k, b)) : ∃ p rec, r = .ok p ∧ p.getInode i = .ok (some rec) ∧ rec.chunkCount = k ∧
      decide (LocatorBelow p rec.data) = b := by
  unfold keptSpace at h
  split at h
  · split at h
    · rename_i p _ rec hget
      obtain ⟨hk, hb⟩ := Prod.mk.inj (Option.some.inj h)
      exact ⟨p, rec, rfl, hget, hk, hb⟩
    · cases h
  · cases h

/-- The theorem at the session that only appends. -/
theorem reopen_keeps_space_append : ∃ p' rec, openWithClasses appendSession.2.1 1 [.hdd] = .ok p' ∧
    p'.getInode 2 = .ok (some rec) ∧ rec.chunkCount = 1 ∧ LocatorBelow p' rec.data := by
  obtain ⟨hrun, hsession⟩ := run_appendSession
  have hraw : ∀ e ∈ eventsOf appendSession, ¬e.StoresExtent := by
    intro e he
    rcases List.mem_cons.mp he with rfl | he
    · exact id
    · rcases List.mem_cons.mp he with rfl | he
      · exact id
      · obtain rfl := List.mem_singleton.mp he
        exact id
  have hkept : keptSpace 2 (openWithClasses appendSession.2.1 1 [.hdd]) = some (1, true) := by decide +kernel
  obtain ⟨p', rec, hopen, hget, hcount, -⟩ := keptSpace_eq_some hkept
  exact ⟨p', rec, hopen, hget, hcount, (reopen_keeps_space hrun hsession hraw (by decide +kernel) hopen).1 2 rec hget⟩

/-- A converted file's extent is stored without a header, so the scan stops in front of it: the pool reopens with a
    cursor below the end of a file the table still names. -/
theorem reopen_loses_space : ∃ p' rec, Run 1 convertSession.2.1 convertSession.2.2 (eventsOf convertSession) ∧
    (∀ e ∈ eventsOf convertSession, e.InSession) ∧ LogFits (eventsOf convertSession) ∧
    openWithClasses convertSession.2.1 1 [.hdd] = .ok p' ∧ p'.getInode 2 = .ok (some rec) ∧
    ¬LocatorBelow p' rec.data := by
  have hplay : play (Env.healthy MetaStore.listOrder) (sampleOps.take 4) onDisk = convertSession := rfl
  obtain ⟨hrun, hsession⟩ := run_session hplay (by decide +kernel)
  have hlost : keptSpace 2 (openWithClasses convertSession.2.1 1 [.hdd]) = some (0, false) := by decide +kernel
  obtain ⟨p', rec, hopen, hget, -, hbelow⟩ := keptSpace_eq_some hlost
  exact ⟨p', rec, hrun, hsession, by decide +kernel, hopen, hget, of_decide_eq_false hbelow⟩

end Tartine.Pool
