import Tartine.Fuse.Fs
import Tartine.Kernel.Ioctl
import Tartine.Meta.PoolPolicy

/-!
# `Fuse.Conversion` — requests to convert a file, refused or resumed

`MAKE_WRITABLE` is two transitions with a copy in between. The first is durable before the copy starts, and nothing takes
it back: where the copy or the second commit fails the reply is an error and the file is left converting. From there no
request leads on, because completing is only reached through a begin that a converting file refuses.

* `refused_conversion_unchanged` — when an error reply leaves the file as it was, in both front ends;
* `converting_never_finishes` — every later `MAKE_WRITABLE` on a converting file.
-/

namespace Tartine

open Basis Codec Kcore

namespace Pool

variable {env : Env} {w w' w₁ : World} {p p' p₁ : Pool} {s' : MetaStore} {mop : MetaOp} {ino : InodeId} {n : Nat}

/-! ## What a metadata operation leaves of the data -/

/-- The same handles, and every read of the data region as it was. -/
structure SameData (a b : World × Pool) : Prop where
  disks_eq : b.2.disks = a.2.disks
  readAt_eq : ∀ r off n, segmentBaseOffset ≤ off → (b.1.disk r).readAt off n = (a.1.disk r).readAt off n

/-- A metadata operation within the log's region, however it ends. -/
theorem sameData_apply {res : Res MetaStoreError Unit} (hwf : MetaWf p.metaStore)
    (hfit : p.metaStore.walCursor + (MetaStore.opFrame env.ord mop).length ≤ Wal.walCapacityBytes)
    (h : p.metaStore.apply env w mop = (res, w', s')) : SameData (w, p) (w', { p with metaStore := s' }) := by
  refine ⟨rfl, fun r off n hoff => ?_⟩
  have hbase := walCapacity_le_segmentBase
  show (w'.disk r).readAt off n = (w.disk r).readAt off n
  rcases MetaStore.apply_disk hwf.2 h r with hsame | ⟨buf, hlen, hw⟩
  · rw [hsame]
  · rw [hw, hwf.1]
    exact FileDisk.readAt_writeAt_below (by omega)

theorem SameData.readReplicated_eq (h : SameData (w, p) (w', p')) (replicas : List (DiskId × UInt64))
    (headerLen len : Nat) : p'.readReplicated w' replicas headerLen len = p.readReplicated w replicas headerLen len := by
  unfold readReplicated
  cases replicas with
  | nil => rfl
  | cons r rs =>
      simp only [show p'.disks = p.disks from h.disks_eq]
      cases p.disks[r.1]? with
      | none => rfl
      | some handle =>
          dsimp only
          have hread := h.readAt_eq handle.disk (segmentBaseOffset + r.2.toNat + headerLen) len (by omega)
          dsimp only at hread
          rw [hread]

theorem SameData.readFullContent_eq (h : SameData (w, p) (w', p')) (rec : InodeRecord) :
    p'.readFullContent w' rec = p.readFullContent w rec := by
  unfold readFullContent
  simp only [h.readReplicated_eq]

/-- The record and the bytes of a file are as they were. -/
structure Unchanged (ino : InodeId) (a b : World × Pool) : Prop where
  getInode_eq : b.2.getInode ino = a.2.getInode ino
  read_eq : ∀ offset len, b.2.read b.1 ino offset len = a.2.read a.1 ino offset len

/-- **A refused metadata operation** leaves every file as it was, whatever its disks did. -/
theorem unchanged_of_refused {e : MetaStoreError} (hwf : MetaWf p.metaStore)
    (hfit : p.metaStore.walCursor + (MetaStore.opFrame env.ord mop).length ≤ Wal.walCapacityBytes)
    (h : p.metaStore.apply env w mop = (.err e, w', s')) (ino : InodeId) :
    Unchanged ino (w, p) (w', { p with metaStore := s' }) := by
  have hview := MetaStore.view_of_refused hwf.2 h
  have hget : ({ p with metaStore := s' } : Pool).getInode ino = p.getInode ino := by
    show liftMeta (s'.view.getInode ino) = liftMeta (p.metaStore.view.getInode ino)
    rw [hview]
  refine ⟨hget, fun offset len => ?_⟩
  show Pool.read w' { p with metaStore := s' } ino offset len = p.read w ino offset len
  unfold Pool.read findInode
  rw [hget]
  simp only [(sameData_apply hwf hfit h).readFullContent_eq]

/-! ## Beginning a conversion -/

/-- The length of the frame that begins a conversion. -/
theorem length_beginConvert (ord : IterOrder) (ino : InodeId) :
    (MetaStore.opFrame ord (.beginConvert ino)).length = 21 := by
  rw [MetaStore.opFrame, Wal.length_buildFrame]
  simp [encodeOp, Enc.u8, Enc.u64, Wal.headerLen]

/-- Beginning a conversion, by the mode of the record it finds. -/
theorem applyLocally_beginConvert {v : View} {rec : InodeRecord} (hget : v.getInode ino = .ok (some rec)) :
    (rec.mode = .appendOnly ∧ v.applyLocally (.beginConvert ino) = .ok (v.writeInode { rec with mode := .converting })) ∨
    (rec.mode ≠ .appendOnly ∧ ∃ e, v.applyLocally (.beginConvert ino) = .err e) := by
  have hread : v.readInode ino = .ok rec := View.readInode_iff_getInode.mpr hget
  have hstep : v.applyLocally (.beginConvert ino) = (do
      let mode ← stepMode tartineBeginConvert "BeginConvert on a file that's already Converting or Writable" rec.mode
      pure (v.writeInode { rec with mode := mode })) := by
    show (v.readInode ino >>= _) = _
    rw [hread, Res.ok_bind]
  rw [hstep]
  cases hmode : rec.mode with
  | appendOnly => exact Or.inl ⟨rfl, rfl⟩
  | converting => exact Or.inr ⟨by simp, _, rfl⟩
  | writable => exact Or.inr ⟨by simp, _, rfl⟩

/-- A begin that went through found an append-only file. -/
theorem beginConvert_eq_ok (hwf : MetaWf p.metaStore) (h : beginConvert env ino (w, p) = (.ok (), w', p')) :
    ∃ rec, p.getInode ino = .ok (some rec) ∧ rec.mode = .appendOnly := by
  obtain ⟨s', happly, -⟩ := applyMeta_eq_ok h
  obtain ⟨-, hview⟩ := MetaStore.apply_eq_ok hwf.2 happly
  obtain ⟨rec, hread, -⟩ := Res.bind_eq_ok.mp hview
  have hget := View.readInode_iff_getInode.mp hread
  refine ⟨rec, by rw [Pool.getInode, MetaStore.getInode, hget]; rfl, ?_⟩
  rcases applyLocally_beginConvert hget with ⟨hmode, -⟩ | ⟨-, e, he⟩
  · exact hmode
  · rw [hview] at he
    cases he

/-! ## Disks that stop -/

/-- Disks whose calls succeed up to a point in time, and fail from there on. -/
def stopping (ord : IterOrder) (t : Nat) : Env := ⟨fun i => if i < t then .ok else .fail [], ord⟩

variable {t : Nat}

theorem writeSync_before (ord : IterOrder) (r : DiskRef) (off : Nat) (buf : Bytes) (h : w.clock + 2 ≤ t) :
    ∃ w', w.writeSync (stopping ord t) r off buf = (.ok (), w') ∧ w'.clock = w.clock + 2 := by
  have hfirst : (stopping ord t).io w.clock = .ok := if_pos (by omega)
  have hsecond : (stopping ord t).io (w.clock + 1) = .ok := if_pos (by omega)
  refine ⟨{ w.setDisk r ((w.disk r).writeAt off buf) with clock := w.clock + 2 }, ?_, rfl⟩
  simp only [World.writeSync, World.writeAt, World.sync, hfirst, hsecond]

theorem writeSync_after (ord : IterOrder) (r : DiskRef) (off : Nat) (buf : Bytes) (h : t ≤ w.clock) :
    ∃ w', w.writeSync (stopping ord t) r off buf = (.error .device, w') := by
  have hfirst : (stopping ord t).io w.clock = .fail [] := if_neg (by omega)
  unfold World.writeSync World.writeAt
  rw [hfirst]
  exact ⟨_, rfl⟩

/-- The disks can stop right after a commit. -/
theorem commit_before (ord : IterOrder) (w : World) (r : MetaReplicator) (buf : Bytes) (off : Nat) :
    ∃ t w', r.commit (stopping ord t) w buf off = (.ok (), w') ∧ t ≤ w'.clock := by
  cases hback : r.backupDisk with
  | none =>
      obtain ⟨w', hw, hclock⟩ := writeSync_before (w := w) ord r.primaryDisk off buf (Nat.le_refl _)
      refine ⟨w.clock + 2, w', ?_, Nat.le_of_eq hclock.symm⟩
      unfold MetaReplicator.commit
      rw [hw, hback]
  | some b =>
      obtain ⟨w₁, hw₁, hclock₁⟩ :=
        writeSync_before (w := w) (t := w.clock + 4) ord r.primaryDisk off buf (by omega)
      obtain ⟨w', hw, hclock⟩ :=
        writeSync_before (w := w₁) (t := w.clock + 4) ord b off buf (by omega)
      refine ⟨w.clock + 4, w', ?_, by omega⟩
      unfold MetaReplicator.commit
      rw [hw₁, hback]
      dsimp only
      rw [hw]

/-- Disks can stop right after an operation that the tables accept. -/
theorem apply_before (ord : IterOrder) (w : World) {s : MetaStore} {u : View}
    (hu : s.view.applyLocally mop = .ok u) :
    ∃ t w' s', s.apply (stopping ord t) w mop = (.ok (), w', s') ∧ t ≤ w'.clock := by
  obtain ⟨t, w', hcommit, hclock⟩ := commit_before ord w s.replicator (MetaStore.opFrame ord mop)
    (s.walBaseOffset + s.walCursor)
  refine ⟨t, w', ((s.advance (MetaStore.opFrame ord mop).length).applyView mop).2, ?_, hclock⟩
  unfold MetaStore.apply
  dsimp only
  rw [show (stopping ord t).ord = ord from rfl, hcommit]
  unfold MetaStore.applyView
  simp only [MetaStore.advance_view, hu]
  rfl

/-- Once they have stopped, no operation is accepted and the store stays as it is. -/
theorem apply_after (ord : IterOrder) (s : MetaStore) (mop : MetaOp) (h : t ≤ w.clock) :
    ∃ e w', s.apply (stopping ord t) w mop = (.err e, w', s) := by
  obtain ⟨w', hw⟩ := writeSync_after ord s.replicator.primaryDisk (s.walBaseOffset + s.walCursor)
    (MetaStore.opFrame ord mop) h
  refine ⟨.commit (.primaryUnavailable .device), w', ?_⟩
  unfold MetaStore.apply MetaReplicator.commit
  dsimp only
  rw [show (stopping ord t).ord = ord from rfl, hw]

/-- Every address a write at a disk's cursor starts from fits a `u64`. -/
def Addressable (p : Pool) : Prop :=
  ∀ (id : DiskId) (h : DiskHandle), p.disks[id]? = some h → segmentBaseOffset + h.cursor < 2 ^ 64

/-- The replica loop writes nothing, or stops at its first disk. -/
theorem writeReplicas_after (ord : IterOrder) (content : Bytes) (ids : List DiskId) (haddr : Addressable p) (h : t ≤ w.clock) :
    (∃ e w', writeReplicas (storeExtent (stopping ord t) content) ids (w, p) = (.err e, w', p)) ∨
    writeReplicas (storeExtent (stopping ord t) content) ids (w, p) = (.ok [], w, p) := by
  cases ids with
  | nil => exact Or.inr rfl
  | cons id ids =>
      left
      have hturn : ∃ e w', writeReplica (storeExtent (stopping ord t) content) id (w, p) = (.err e, w', p) := by
        unfold writeReplica
        dsimp only
        cases hid : p.disks[id]? with
        | none => exact ⟨_, _, rfl⟩
        | some handle =>
            obtain ⟨w', hw⟩ := writeSync_after ord handle.disk (segmentBaseOffset + handle.cursor) content h
            have hlt := haddr id handle hid
            refine ⟨.io .device, w', ?_⟩
            dsimp only
            unfold storeExtent
            rw [if_neg (by omega), hw]
      obtain ⟨e, w', hfailed⟩ := hturn
      exact ⟨e, w', Action.bind_of_err hfailed⟩

/-- Placement never fails to return in a pool that the kernel core's indices can address. -/
theorem place_settles (hpool : p.poolMap.disks.size < 2 ^ 32 - 1) (ord : IterOrder) (scheme : RedundancyScheme) (key : UInt64) :
    (∃ ids, p.place ord scheme key = .ok ids) ∨ ∃ e, p.place ord scheme key = .err e := by
  unfold place
  cases scheme with
  | erasureCoded ds ps => exact Or.inr ⟨.unplaceable, rfl⟩
  | replicated slots =>
      rw [Placement.placeRedundancy_eq hpool]
      simp only [Res.mapErr, Res.ok_bind]
      split
      · exact Or.inr ⟨_, rfl⟩
      · exact Or.inl ⟨_, rfl⟩

/-- The copy of a whole file does nothing, or fails at its first disk. -/
theorem writeWholeFileExtent_after (ord : IterOrder) (ino : InodeId) (redundancy : RedundancyScheme) (content : Bytes)
    (hpool : p.poolMap.disks.size < 2 ^ 32 - 1) (haddr : Addressable p) (h : t ≤ w.clock) :
    (∃ e w', writeWholeFileExtent (stopping ord t) ino redundancy 0 content (w, p) = (.err e, w', p)) ∨
    ∃ xs, writeWholeFileExtent (stopping ord t) ino redundancy 0 content (w, p) = (.ok xs, w, p) := by
  unfold writeWholeFileExtent
  split
  · exact Or.inr ⟨[], rfl⟩
  · rcases place_settles hpool ord redundancy (Placement.placementKey ino (UInt64.ofNat (2 ^ 64 - 1))) with
      ⟨ids, hids⟩ | ⟨e, he⟩
    · have hplaced : Action.reads (fun a : World × Pool => a.2.place ord redundancy
          (Placement.placementKey ino (UInt64.ofNat (2 ^ 64 - 1)))) (w, p) = (.ok ids, w, p) :=
        Action.reads_eq_ok.mpr ⟨hids, rfl⟩
      rcases writeReplicas_after ord content ids haddr h with ⟨e, w', hfailed⟩ | hnone
      · exact Or.inl ⟨e, w', (Action.bind_of_ok hplaced).trans (Action.bind_of_err hfailed)⟩
      · exact Or.inr ⟨_, (Action.bind_of_ok hplaced).trans (Action.bind_of_ok hnone)⟩
    · have hrefused : Action.reads (fun a : World × Pool => a.2.place ord redundancy
          (Placement.placementKey ino (UInt64.ofNat (2 ^ 64 - 1)))) (w, p) = (.err e, w, p) :=
        Action.reads_eq_err.mpr ⟨he, rfl⟩
      exact Or.inl ⟨e, w, Action.bind_of_err hrefused⟩

/-- **A conversion cannot be completed on stopped disks**, and the attempt leaves the records alone. -/
theorem completeConvert_after (ord : IterOrder) {rec : InodeRecord} (htab : Tabled n (Readable False n) w p)
    (hpool : p.poolMap.disks.size < 2 ^ 32 - 1) (haddr : Addressable p) (hget : p.getInode ino = .ok (some rec))
    (hmode : rec.mode = .converting) (h : t ≤ w.clock) :
    ∃ e w' p', completeConvert (stopping ord t) ino (w, p) = (.err e, w', p') ∧ p'.metaStore = p.metaStore := by
  have hfind : p.findInode ino = .ok rec := findInode_of_getInode hget
  have hcommit : ∀ mop, ∃ e w', applyMeta (stopping ord t) mop (w, p) = (.err e, w', p) := by
    intro mop
    obtain ⟨e, w', happly⟩ := apply_after ord p.metaStore mop h
    exact ⟨_, w', applyMeta_of_apply happly⟩
  -- whatever the data phase comes to, the commit after it fails
  have hphase : (∃ e w', prepareCompleteConvert (stopping ord t) ino (w, p) = (.err e, w', p)) ∨
      ∃ mop, prepareCompleteConvert (stopping ord t) ino (w, p) = (.ok mop, w, p) := by
    rcases settles_readFullContent htab.disks (htab.of_findInode hfind).2 with ⟨content, hcontent⟩ | ⟨-, hcontent⟩
    · have hplan : p.planCompleteConvert w ino = .ok (rec.redundancy, content) := by
        rw [planCompleteConvert_of_mode hfind hmode, hcontent]
        rfl
      have hread : Action.reads (fun a : World × Pool => a.2.planCompleteConvert a.1 ino) (w, p) =
          (.ok (rec.redundancy, content), w, p) := Action.reads_eq_ok.mpr ⟨hplan, rfl⟩
      rcases writeWholeFileExtent_after ord ino rec.redundancy content hpool haddr h with
        ⟨e, w', hfailed⟩ | ⟨xs, hdone⟩
      · exact Or.inl ⟨e, w', (Action.bind_of_ok hread).trans (Action.bind_of_err hfailed)⟩
      · exact Or.inr ⟨_, (Action.bind_of_ok hread).trans (Action.bind_of_ok hdone)⟩
    · have hplan : p.planCompleteConvert w ino = .err .unplaceable := by
        rw [planCompleteConvert_of_mode hfind hmode, hcontent]
        rfl
      have hread : Action.reads (fun a : World × Pool => a.2.planCompleteConvert a.1 ino) (w, p) =
          (.err .unplaceable, w, p) := Action.reads_eq_err.mpr ⟨hplan, rfl⟩
      exact Or.inl ⟨.unplaceable, w, Action.bind_of_err hread⟩
  rcases hphase with ⟨e, w', hfailed⟩ | ⟨mop, hdone⟩
  · exact ⟨e, w', p, Action.bind_of_err hfailed, rfl⟩
  · obtain ⟨e, w', hfailed⟩ := hcommit mop
    exact ⟨e, w', p, (Action.bind_of_ok hdone).trans hfailed, rfl⟩

end Pool

namespace Fuse

open Pool

variable {env : Env} {w w' : World} {p p' : Pool} {ino : InodeId} {inData : Bytes} {n : Nat} {events : List Event}

/-! ## A refused request -/

/-- The flags word is there, and asks to wait for the end of the conversion. -/
def AsksToWait (inData : Bytes) : Prop :=
  4 ≤ inData.length ∧ UInt32.ofNat (leNat (field inData 0 4)) &&& tartineConvertFlagWait ≠ 0

/-- A conversion of the file can begin. -/
def AppendOnly (p : Pool) (ino : InodeId) : Prop := ∃ rec, p.getInode ino = .ok (some rec) ∧ rec.mode = .appendOnly

/-- What holds between the states before and after, whenever `MAKE_WRITABLE` replies with an error. -/
def AfterRefusal (R : World × Pool → World × Pool → Prop) (w : World) (p : Pool) (ino : InodeId) (inData : Bytes) :
    Prop :=
  ∀ env e w' p', ioctl env ino tartineIocMakeWritable inData (w, p) = (.err e, w', p') → R (w, p) (w', p')

/-- **Every way an error reply comes about**: the flags word is missing, beginning was refused, or a conversion that had
    begun was not completed. -/
theorem makeWritable_err {e : Errno} (h : ioctl env ino tartineIocMakeWritable inData (w, p) = (.err e, w', p')) :
    (w' = w ∧ p' = p ∧ inData.length < 4) ∨
    (∃ e', beginConvert env ino (w, p) = (.err e', w', p') ∧ e = .ealready) ∨
    (AsksToWait inData ∧ ∃ w₁ p₁ e', beginConvert env ino (w, p) = (.ok (), w₁, p₁) ∧
      completeConvert env ino (w₁, p₁) = (.err e', w', p')) := by
  unfold ioctl at h
  rw [if_pos rfl] at h
  split at h
  · rename_i hshort
    obtain ⟨-, rfl, rfl⟩ := h
    exact Or.inl ⟨rfl, rfl, hshort⟩
  · rename_i hlen
    rcases Action.bind_cases h with ⟨u, ⟨w₁, p₁⟩, hbegin, hrest⟩ | ⟨e', hbegin, he⟩ | ⟨-, he⟩
    · split at hrest
      · rename_i hwait
        rcases Action.bind_cases hrest with ⟨u', s', -, hlast⟩ | ⟨e', hcomplete, he⟩ | ⟨-, he⟩
        · cases hlast
        · obtain ⟨e₀, hfailed, -⟩ := Action.mapErr_eq_err.mp hcomplete
          exact Or.inr (Or.inr ⟨⟨by omega, hwait⟩, w₁, p₁, e₀, Action.mapErr_eq_ok.mp hbegin, hfailed⟩)
        · cases he
      · cases hrest
    · obtain ⟨e₀, hrefused, he₀⟩ := Action.mapErr_eq_err.mp hbegin
      obtain rfl := Res.err.inj he
      exact Or.inr (Or.inl ⟨e₀, hrefused, he₀⟩)
    · cases he

/-- **An error reply leaves the file as it was**, unless it comes after a conversion that the request itself began. -/
theorem afterRefusal_of_not (hwf : MetaWf p.metaStore) (hnot : ¬(AppendOnly p ino ∧ AsksToWait inData))
    {R : World × Pool → World × Pool → Prop} (hrefl : ∀ a, R a a)
    (hrefused : ∀ env e w' s', p.metaStore.apply env w (.beginConvert ino) = (.err e, w', s') →
      R (w, p) (w', { p with metaStore := s' })) : AfterRefusal R w p ino inData := by
  intro env e w' p' h
  rcases makeWritable_err h with ⟨rfl, rfl, -⟩ | ⟨e', hbegin, -⟩ | ⟨hwait, w₁, p₁, e', hbegin, -⟩
  · exact hrefl _
  · obtain ⟨q, s', happly, hq, rfl⟩ := applyMeta_cases hbegin
    obtain ⟨e'', rfl, -⟩ := Res.mapErr_eq_err.mp hq.symm
    exact hrefused _ _ _ _ happly
  · exact absurd ⟨beginConvert_eq_ok hwf hbegin, hwait⟩ hnot

/-- On disks that stop after the first commit, waiting for a conversion ends in an error and a converting file. -/
theorem conversion_stops (hrun : Run n w p events) (hfits : LogFits events) (hdurable : ReopenedDurable events)
    (hpool : p.poolMap.disks.size < 2 ^ 32 - 1) (haddr : Addressable p)
    (hroom : p.metaStore.walCursor + 21 ≤ Wal.walCapacityBytes) (happ : AppendOnly p ino) (hwait : AsksToWait inData) :
    ∃ env e w' p', ioctl env ino tartineIocMakeWritable inData (w, p) = (.err e, w', p') ∧
      p'.getInode ino ≠ p.getInode ino := by
  obtain ⟨rec, hget, hmode⟩ := happ
  have hview : p.metaStore.view.getInode ino = .ok (some rec) := Res.mapErr_eq_ok.mp hget
  obtain ⟨u, hu⟩ : ∃ u, p.metaStore.view.applyLocally (.beginConvert ino) = .ok u := by
    rcases applyLocally_beginConvert hview with ⟨-, hu⟩ | ⟨hbad, -⟩
    · exact ⟨_, hu⟩
    · exact absurd hmode hbad
  obtain ⟨t, w₁, s₁, happly, hclock⟩ := apply_before MetaStore.listOrder w hu
  have hfit : p.metaStore.walCursor + (MetaStore.opFrame (stopping MetaStore.listOrder t).ord
      (.beginConvert ino)).length ≤ Wal.walCapacityBytes := by
    rw [length_beginConvert]
    exact hroom
  have hbegin : beginConvert (stopping MetaStore.listOrder t) ino (w, p) = (.ok (), w₁, { p with metaStore := s₁ }) :=
    applyMeta_of_apply happly
  have htab : Tabled n (Readable False n) w p := hrun.readable hfits hdurable (fun hfalse => hfalse.elim)
  have hempty : ∀ rec', MetaOp.beginConvert ino = .createInode rec' → rec'.chunkCount = 0 := by
    intro rec' h
    cases h
  have htab₁ : Tabled n (Readable False n) w₁ { p with metaStore := s₁ } := by
    refine htab.apply (fun _ _ _ hlonger hrec => hrec.mono hlonger) happly (by simp) hfit (fun rec' hstep => ?_) hempty
    have hhands : Hands (stopping MetaStore.listOrder t) w p (.beginConvert ino) (.beginConvert ino) w p := .beginConvert
    exact hhands.readable (fun hfalse => hfalse.elim) htab htab hstep
  obtain ⟨rec₁, hrec₁, hhas⟩ := htab.has_apply happly hfit hempty rfl
  cases hrec₁ with
  | @beginConvert _ old hread hold =>
      have hget₁ : ({ p with metaStore := s₁ } : Pool).getInode ino = .ok (some { old with mode := .converting }) :=
        getInode_of_view hhas.getInode_eq
      obtain ⟨e, w', p', hfailed, hstore⟩ := completeConvert_after MetaStore.listOrder htab₁ hpool haddr hget₁ rfl hclock
      refine ⟨stopping MetaStore.listOrder t, errnoFor e, w', p', ?_, ?_⟩
      · unfold ioctl
        rw [if_pos rfl, if_neg (by have := hwait.1; omega)]
        refine (Action.bind_of_ok (Action.mapErr_eq_ok.mpr hbegin)).trans ?_
        rw [if_pos hwait.2]
        exact Action.bind_of_err (Action.mapErr_eq_err.mpr ⟨e, hfailed, rfl⟩)
      · have hget' : p'.getInode ino = .ok (some { old with mode := .converting }) := by
          rw [← hget₁]
          show liftMeta (p'.metaStore.getInode ino) = liftMeta (s₁.getInode ino)
          rw [hstore]
        rw [hget', hget]
        intro hsame
        obtain rfl : _ = rec := Option.some.inj (Res.ok.inj hsame)
        cases hmode

/-- **A refused conversion.** In every reachable pool an error reply to `MAKE_WRITABLE` leaves the record as it was, and
    with room left in the log the bytes too, unless the file is append-only and the request waits for the conversion;
    such a request can always be made to fail with the file left converting. The kernel's handler is the same, but for
    the callers it turns away first. -/
theorem refused_conversion_unchanged (hrun : Run n w p events) (ino : InodeId) (inData : Bytes) :
    (¬(AppendOnly p ino ∧ AsksToWait inData) →
      AfterRefusal (fun a b => b.2.getInode ino = a.2.getInode ino) w p ino inData) ∧
    (p.metaStore.walCursor + 21 ≤ Wal.walCapacityBytes →
      (¬(AppendOnly p ino ∧ AsksToWait inData) → AfterRefusal (Unchanged ino) w p ino inData) ∧
      (LogFits events → ReopenedDurable events → p.poolMap.disks.size < 2 ^ 32 - 1 → Addressable p →
        AfterRefusal (Unchanged ino) w p ino inData → ¬(AppendOnly p ino ∧ AsksToWait inData))) ∧
    ∀ (caller : Kernel.Caller) (ti : Kernel.InodeInfo),
      Kernel.MakeWritableKeeps caller ti ↔ ¬(ti.mode = modeAppendOnly ∧ Kernel.AsksToWait caller) := by
  have hwf := hrun.wf.1
  refine ⟨fun hnot => ?_, fun hroom => ⟨fun hnot => ?_, ?_⟩, fun caller ti => Kernel.makeWritable_keeps_iff caller ti⟩
  · refine afterRefusal_of_not hwf hnot (fun _ => rfl) (fun env e w' s' h => ?_)
    show liftMeta (s'.view.getInode ino) = liftMeta (p.metaStore.view.getInode ino)
    rw [MetaStore.view_of_refused hwf.2 h]
  · refine afterRefusal_of_not hwf hnot (fun _ => ⟨rfl, fun _ _ => rfl⟩) (fun env e w' s' h => ?_)
    refine unchanged_of_refused hwf ?_ h ino
    rw [length_beginConvert]
    exact hroom
  · intro hfits hdurable hpool haddr hkeeps ⟨happ, hwait⟩
    obtain ⟨env, e, w', p', hreply, hchanged⟩ := conversion_stops hrun hfits hdurable hpool haddr hroom happ hwait
    exact hchanged (hkeeps _ _ _ _ hreply).getInode_eq

/-- The mode of a file. -/
def modeOf (p : Pool) (ino : InodeId) : Option InodeMode :=
  match p.getInode ino with
  | .ok (some rec) => some rec.mode
  | _              => none

theorem modeOf_eq_some {mode : InodeMode} :
    modeOf p ino = some mode ↔ ∃ rec, p.getInode ino = .ok (some rec) ∧ rec.mode = mode := by
  unfold modeOf
  constructor
  · intro h
    split at h
    · rename_i rec hget
      exact ⟨rec, hget, Option.some.inj h⟩
    · cases h
  · rintro ⟨rec, hget, rfl⟩
    rw [hget]

theorem addressable_of_toList (h : ∀ e ∈ p.disks.toList, segmentBaseOffset + e.2.cursor < 2 ^ 64) : Addressable p :=
  fun _ _ hid => h _ (Std.ExtTreeMap.mem_toList_iff_getElem?_eq_some.mpr hid)

/-- A writable file, and an append-only one: asked to wait for their conversion, the first is left as it was by every
    error and the second is not. -/
theorem refused_conversion_unchanged_sample :
    AfterRefusal (Unchanged 2) sampleSession.2.1 sampleSession.2.2 2 [1, 0, 0, 0] ∧
    ¬AfterRefusal (Unchanged 2) appendSession.2.1 appendSession.2.2 2 [1, 0, 0, 0] := by
  constructor
  · refine ((refused_conversion_unchanged run_sample 2 [1, 0, 0, 0]).2.1 (by decide +kernel)).1 ?_
    rintro ⟨happ, -⟩
    have hmode : modeOf sampleSession.2.2 2 = some .writable := by decide +kernel
    rw [modeOf_eq_some.mpr happ] at hmode
    cases hmode
  · intro hkeeps
    obtain ⟨hrun, hsession⟩ := run_appendSession
    have hmode : modeOf appendSession.2.2 2 = some .appendOnly := by decide +kernel
    refine ((refused_conversion_unchanged hrun 2 [1, 0, 0, 0]).2.1 (by decide +kernel)).2 (by decide +kernel)
      (beforeReopens_of_healthy (fun e he => (hsession e he).healthy) (fun _ _ hall => primaryUp_of_healthy hall))
      (by decide +kernel) (addressable_of_toList (by decide +kernel)) hkeeps ⟨modeOf_eq_some.mp hmode, ?_⟩
    exact ⟨by decide, by decide⟩

/-- An append-only file of three bytes, and a disk that fails after the first commit: the request that waits for the
    conversion is answered with `EIO` and the file is converting. In the kernel a fresh inode and the same flags do. -/
theorem refused_conversion_converts :
    Run 1 appendSession.2.1 appendSession.2.2 (eventsOf appendSession) ∧
    modeOf appendSession.2.2 2 = some .appendOnly ∧
    (ioctl (stopping MetaStore.listOrder (appendSession.2.1.clock + 2)) 2 tartineIocMakeWritable [1, 0, 0, 0]
      appendSession.2).1 = .err .eio ∧
    modeOf (ioctl (stopping MetaStore.listOrder (appendSession.2.1.clock + 2)) 2 tartineIocMakeWritable [1, 0, 0, 0]
      appendSession.2).2.2 2 = some .converting ∧
    (Kernel.tartineFileIoctl Kernel.tartineIocMakeWritable ⟨true, [1, 0, 0, 0], 0⟩
      (Kernel.tartineAllocInode (List.replicate 384 0) 0 List.length_replicate)).1 = .error .eopnotsupp ∧
    (Kernel.tartineFileIoctl Kernel.tartineIocMakeWritable ⟨true, [1, 0, 0, 0], 0⟩
      (Kernel.tartineAllocInode (List.replicate 384 0) 0 List.length_replicate)).2.mode = modeConverting := by
  exact ⟨run_appendSession.1, by decide +kernel, by decide +kernel, by decide +kernel, by decide +kernel,
    by decide +kernel⟩

/-! ## A file that is left converting -/

/-- **A converting file stays so.** Whatever brought it there, every `MAKE_WRITABLE` on it, with the wait flag or
    without, is answered with `EALREADY` and leaves its record as it was. -/
theorem converting_never_finishes (hrun : AnyRun n w p events) {rec : InodeRecord}
    (hget : p.getInode ino = .ok (some rec)) (hmode : rec.mode = .converting) (hin : 4 ≤ inData.length)
    (ord : IterOrder) : ∃ w' p', ioctl (Env.healthy ord) ino tartineIocMakeWritable inData (w, p) =
      (.err .ealready, w', p') ∧ p'.getInode ino = .ok (some rec) := by
  have hview : p.metaStore.view.getInode ino = .ok (some rec) := Res.mapErr_eq_ok.mp hget
  rcases applyLocally_beginConvert hview with ⟨hbad, -⟩ | ⟨-, e, he⟩
  · rw [hmode] at hbad
    cases hbad
  · obtain ⟨w', s', happly⟩ := MetaStore.apply_healthy_of_rejected ord w he
    have hbegin : beginConvert (Env.healthy ord) ino (w, p) = (.err (.metaErr e), w', { p with metaStore := s' }) :=
      applyMeta_of_apply happly
    refine ⟨w', { p with metaStore := s' }, ?_, ?_⟩
    · unfold ioctl
      rw [if_pos rfl, if_neg (by omega)]
      exact Action.bind_of_err (Action.mapErr_eq_err.mpr ⟨_, hbegin, rfl⟩)
    · rw [← hget]
      show liftMeta (s'.view.getInode ino) = _
      rw [MetaStore.view_of_refused hrun.wf.1.2 happly]
      rfl

/-- A file is created, appended to and begun to be converted. -/
def convertSession : List Event × World × Pool :=
  play (Env.healthy MetaStore.listOrder) (sampleOps.take 3) onDisk

theorem run_convertSession : Run 1 convertSession.2.1 convertSession.2.2 (eventsOf convertSession) := by
  have hplay : play (Env.healthy MetaStore.listOrder) (sampleOps.take 3) onDisk = convertSession := rfl
  exact (run_session hplay (by decide +kernel)).1

/-- The theorem at that file. -/
theorem converting_never_finishes_session : ∃ rec w' p', rec.mode = .converting ∧
    ioctl (Env.healthy MetaStore.listOrder) 2 tartineIocMakeWritable [1, 0, 0, 0] convertSession.2 =
      (.err .ealready, w', p') ∧ p'.getInode 2 = .ok (some rec) := by
  have hmode : modeOf convertSession.2.2 2 = some .converting := by decide +kernel
  obtain ⟨rec, hget, hrec⟩ := modeOf_eq_some.mp hmode
  obtain ⟨w', p', hreply, hget'⟩ := converting_never_finishes run_convertSession.any hget hrec
    (show 4 ≤ [1, 0, 0, 0].length by decide) MetaStore.listOrder
  exact ⟨rec, w', p', hrec, hreply, hget'⟩

/-- Nothing is missing there but a request that completes: the pool itself would make the file writable at once. -/
theorem interrupted_conversion_stays :
    Run 1 convertSession.2.1 convertSession.2.2 (eventsOf convertSession) ∧
    modeOf convertSession.2.2 2 = some .converting ∧
    (ioctl (Env.healthy MetaStore.listOrder) 2 tartineIocMakeWritable [1, 0, 0, 0] convertSession.2).1 =
      .err .ealready ∧
    modeOf (ioctl (Env.healthy MetaStore.listOrder) 2 tartineIocMakeWritable [1, 0, 0, 0] convertSession.2).2.2 2 =
      some .converting ∧
    modeOf (step (Env.healthy MetaStore.listOrder) (.completeConvert 2) convertSession.2).2.2 2 = some .writable := by
  exact ⟨run_convertSession, by decide +kernel, by decide +kernel, by decide +kernel, by decide +kernel⟩

end Fuse

end Tartine
