import Tartine.Fuse.Fs
import Tartine.Meta.PoolTable

/-!
# `Fuse.TableInvariant` — branches that rest on a consistent table

Several branches of the pool return `WrongMode` or panic only on records whose mode, locator and size disagree. On a
consistent table (`TableOk`) the write path never takes them: what `classify_write` lets through, the pool does not
refuse for its mode, the copies of `read_full_content` stay inside its buffer, and a created file gets a new number.

* `table_invariant` — the table and these branches, in every state of every run within the log's region;
* `smuggled_record` — beyond the region, bytes of a frame that was cut off can become log entries of a later session.
-/

namespace Tartine

open Basis Codec Kcore

namespace Pool

variable {env : Env} {w w' : World} {p p' : Pool}

/-! ## What rests on it -/

/-- The replica loops never blame the file's mode. -/
theorem raises_writeReplicas {writeOne : World → DiskHandle → Res PoolError Nat × World}
    (hone : ∀ w h e w', writeOne w h = (.err e, w') → e ≠ .wrongMode) (ids : List DiskId) :
    Action.Raises (· ≠ .wrongMode) (writeReplicas writeOne ids) := by
  have hturn : ∀ id, Action.Raises (· ≠ .wrongMode) (writeReplica writeOne id) := by
    rintro id ⟨w, p⟩ e s' h
    unfold writeReplica at h
    dsimp only at h
    split at h
    · obtain rfl := Res.err.inj (Prod.mk.inj h).1
      simp
    · split at h
      · rename_i e' w' hw
        obtain rfl := Res.err.inj (Prod.mk.inj h).1
        exact hone _ _ _ _ hw
      · cases (Prod.mk.inj h).1
      · cases (Prod.mk.inj h).1
  induction ids with
  | nil => exact Action.raises_pure _
  | cons id ids ih => exact (hturn id).bind (fun _ => ih.bind (fun _ => Action.raises_pure _))

theorem raises_applyMeta (mop : MetaOp) : Action.Raises (· ≠ .wrongMode) (applyMeta env mop) := by
  rintro ⟨w, p⟩ e ⟨w', p'⟩ h
  obtain ⟨q, s', -, hq, -⟩ := applyMeta_cases h
  cases q with
  | ok u => cases hq
  | err e' =>
      obtain rfl := Res.err.inj hq
      simp
  | panic => cases hq

theorem place_err {ord : IterOrder} {scheme : RedundancyScheme} {key : UInt64} {e : PoolError}
    (h : p.place ord scheme key = .err e) : e = .unplaceable := by
  rcases Res.bind_eq_err.mp h with h | ⟨placed, -, h⟩
  · obtain ⟨_, -, rfl⟩ := Res.mapErr_eq_err.mp h
    rfl
  · split at h
    · exact (Res.err.inj h).symm
    · cases h

theorem raises_writeWholeFileExtent (inode : InodeId) (redundancy : RedundancyScheme) (fileOffset : UInt64)
    (content : Bytes) :
    Action.Raises (· ≠ .wrongMode) (writeWholeFileExtent env inode redundancy fileOffset content) := by
  unfold writeWholeFileExtent
  split
  · exact Action.raises_pure _
  · refine Action.Raises.bind ?_ (fun ids => ?_)
    · intro s e s' h
      rw [place_err (Prod.mk.inj h).1]
      simp
    · exact (raises_writeReplicas (fun _ _ _ _ h => by obtain ⟨_, rfl⟩ := storeExtent_err h; simp) ids).bind (fun _ => Action.raises_pure _)

/-- `append` blames the mode only of a file that is not made of chunks. -/
theorem append_ne_wrongMode {inode : InodeId} {rec : InodeRecord} {payload : Bytes} (h : TableOk p)
    (hget : p.getInode inode = .ok (some rec)) (hmode : rec.mode = .appendOnly ∨ rec.mode = .converting) :
    (append env inode payload (w, p)).1 ≠ .err .wrongMode := by
  intro herr
  generalize hout : append env inode payload (w, p) = out at herr
  obtain ⟨r, s'⟩ := out
  obtain rfl : r = .err .wrongMode := herr
  obtain ⟨-, hok, -⟩ := h.records.of_getInode (Res.mapErr_eq_ok.mp hget)
  obtain ⟨chunks, hdata, -⟩ := hok.chunked hmode
  have hfind : p.findInode inode = .ok rec := findInode_of_getInode hget
  rcases Action.bind_cases hout with ⟨mop, s₁, -, hmeta⟩ | ⟨e, hprep, he⟩ | ⟨-, he⟩
  · exact raises_applyMeta mop s₁ _ s' hmeta rfl
  · obtain rfl := Res.err.inj he
    rcases Action.bind_cases hprep with ⟨⟨chunkSeq, ids⟩, s₁, -, hrest⟩ | ⟨e, hplan, he⟩ | ⟨-, he⟩
    · refine ((raises_writeReplicas (fun _ _ _ _ h => by obtain ⟨_, rfl⟩ := appendRecord_err h; simp) ids).bind ?_) s₁ _ s' hrest rfl
      exact fun _ => Action.raises_pure _
    · obtain rfl := Res.err.inj he
      have hplan' : p.planAppend env.ord inode = .err .wrongMode := (Prod.mk.inj hplan).1
      unfold planAppend at hplan'
      rw [hfind, Res.ok_bind, if_neg (by rcases hmode with h | h <;> simp [h])] at hplan'
      simp only [hdata] at hplan'
      rcases Res.bind_eq_err.mp hplan' with hplace | ⟨ids, -, hpure⟩
      · cases place_err hplace
      · cases hpure
    · cases he
  · cases he

theorem readFullContent_ne_wrongMode {rec : InodeRecord} : p.readFullContent w rec ≠ .err .wrongMode := by
  refine readFullContent_ne_err (.of_forall (fun headerLen len replicas he => ?_) _)
  rcases readReplicated_err he with ⟨-, he⟩ | he | ⟨x, he⟩
  · cases he
  · cases he
  · cases he

/-- `write` blames the mode only of a file that is not writable. -/
theorem write_ne_wrongMode {inode : InodeId} {rec : InodeRecord} {offset : UInt64} {data : Bytes}
    (hget : p.getInode inode = .ok (some rec)) (hmode : rec.mode = .writable) :
    (write env inode offset data (w, p)).1 ≠ .err .wrongMode := by
  intro herr
  generalize hout : write env inode offset data (w, p) = out at herr
  obtain ⟨r, s'⟩ := out
  obtain rfl : r = .err .wrongMode := herr
  have hfind : p.findInode inode = .ok rec := findInode_of_getInode hget
  rcases Action.bind_cases hout with ⟨mop, s₁, -, hmeta⟩ | ⟨e, hprep, he⟩ | ⟨-, he⟩
  · exact raises_applyMeta mop s₁ _ s' hmeta rfl
  · obtain rfl := Res.err.inj he
    rcases Action.bind_cases hprep with ⟨⟨redundancy, content⟩, s₁, -, hrest⟩ | ⟨e, hplan, he⟩ | ⟨-, he⟩
    · refine ((raises_writeWholeFileExtent inode redundancy 0 content).bind ?_) s₁ _ s' hrest rfl
      exact fun _ => Action.raises_pure _
    · obtain rfl := Res.err.inj he
      -- what is left is the plan, which checks the mode itself
      have hplan' : p.planWrite w inode offset data = .err .wrongMode := (Prod.mk.inj hplan).1
      unfold planWrite at hplan'
      rw [hfind, Res.ok_bind, if_neg (by simp [hmode])] at hplan'
      rcases Res.bind_eq_err.mp hplan' with hread | ⟨content, -, hcopy⟩
      · exact readFullContent_ne_wrongMode hread
      · dsimp only at hcopy
        split at hcopy
        · cases hcopy
        · split at hcopy
          · cases hcopy
          · rcases Res.bind_eq_err.mp hcopy with hcopy | ⟨_, -, hpure⟩
            · exact copyInto_ne_err hcopy
            · cases hpure
    · cases he
  · cases he

/-! ## The copies of `read_full_content` -/

/-- Whenever the reader of a mapped file reaches the copy of an extent, the copy is in bounds. -/
def CopiesInBounds (w : World) (p : Pool) (rec : InodeRecord) : Prop :=
  ∀ before x after out bytes, rec.data = .extents (before ++ x :: after) →
    before.foldlM (fun out extent => do
      let bytes ← p.readReplicated w extent.replicas 0 extent.len.toNat
      copyInto out extent.fileOffset.toNat bytes) (List.replicate rec.size.toNat 0) = Res.ok out →
    p.readReplicated w x.replicas 0 x.len.toNat = .ok bytes → x.fileOffset.toNat + bytes.length ≤ out.length

theorem copiesInBounds_of_consistent {rec : InodeRecord} (h : rec.Consistent) : CopiesInBounds w p rec := by
  intro before x after out bytes hdata hout hread
  have hmode : rec.mode = .writable := by
    cases hm : rec.mode with
    | writable => rfl
    | appendOnly =>
        obtain ⟨chunks, hchunks, -⟩ := h.chunked (Or.inl hm)
        rw [hdata] at hchunks
        cases hchunks
    | converting =>
        obtain ⟨chunks, hchunks, -⟩ := h.chunked (Or.inr hm)
        rw [hdata] at hchunks
        cases hchunks
  obtain ⟨xs, hxs, hstop, -⟩ := h.mapped hmode
  rw [hdata] at hxs
  obtain rfl := DataLocator.extents.inj hxs
  have hx := hstop x (by simp)
  rw [length_copyExtents hout, length_readReplicated hread, List.length_replicate]
  exact hx

/-- A created file gets a number that was not in the table. -/
theorem createFile_fresh {parent id : InodeId} {name : String} {redundancy : RedundancyScheme}
    {uid gid unixMode : UInt32} {now : UInt64} (hk : p.metaStore.view.KeysBelow)
    (h : createFile env parent name redundancy uid gid unixMode now (w, p) = (.ok id, w', p')) :
    p.metaStore.view.inodes[id]? = none := by
  obtain ⟨id', s₁, halloc, hend⟩ := createFile_cases h (by simp)
  obtain rfl : id' = id := by
    rcases hend with ⟨e, he, -⟩ | ⟨w₂, s₂, -, q, -, ⟨-, hid⟩ | ⟨e, -, he⟩⟩
    · cases he
    · exact (Res.ok.inj hid).symm
    · cases he
  exact (MetaStore.keysBelow_alloc hk halloc).2

/-! ## The write path -/

/-- An append is let through only into a file that is not writable yet. -/
theorem mode_of_classifyWrite_append {rec : InodeRecord} {offset : UInt64}
    (h : Fuse.classifyWrite rec offset = .ok .append) : rec.mode = .appendOnly ∨ rec.mode = .converting := by
  rw [Fuse.classifyWrite_eq] at h
  cases hmode : rec.mode with
  | appendOnly => exact Or.inl rfl
  | converting => exact Or.inr rfl
  | writable =>
      rw [hmode] at h
      cases h

/-- A random write is let through only into a writable file. -/
theorem mode_of_classifyWrite_random {rec : InodeRecord} {offset : UInt64}
    (h : Fuse.classifyWrite rec offset = .ok .randomWrite) : rec.mode = .writable := by
  rw [Fuse.classifyWrite_eq] at h
  cases hmode : rec.mode with
  | writable => rfl
  | appendOnly =>
      rw [hmode] at h
      dsimp only at h
      split at h
      · cases h
      · cases h
  | converting =>
      rw [hmode] at h
      dsimp only at h
      split at h
      · cases h
      · cases h

/-- **The inode table's invariant.** In every state of every run whose frames fit the log's region, whose log reached the
    primary before each reopen, and whose conversions complete below `2^32` bytes: every entry is a record under its own
    number, below the counter, whose mode, locator and size agree. So the write path never meets `WrongMode`, the
    reader's copies are in bounds, and a created file's number is new. -/
theorem table_invariant {n : Nat} {events : List Event} (hrun : AnyRun n w p events) (hfits : LogFits events)
    (hdurable : ReopenedDurable events) (hsmall : ∀ e ∈ events, e.SmallConversion) :
    (∀ (i : InodeId) bytes, p.metaStore.view.inodes[i]? = some bytes → ∃ rec,
      decodeInodeRecord bytes = some (rec, []) ∧ rec.inode = i ∧ i.toNat < p.metaStore.view.nextInode.toNat ∧
      rec.Consistent) ∧
    (∀ env i rec offset payload, p.getInode i = .ok (some rec) → Fuse.classifyWrite rec offset = .ok .append →
      (append env i payload (w, p)).1 ≠ .err .wrongMode) ∧
    (∀ env i rec offset data, p.getInode i = .ok (some rec) → Fuse.classifyWrite rec offset = .ok .randomWrite →
      (write env i offset data (w, p)).1 ≠ .err .wrongMode) ∧
    (∀ i rec, p.getInode i = .ok (some rec) → CopiesInBounds w p rec) ∧
    ∀ env parent name redundancy uid gid unixMode now id w' p',
      createFile env parent name redundancy uid gid unixMode now (w, p) = (.ok id, w', p') →
      p.metaStore.view.inodes[id]? = none := by
  obtain ⟨hok, -⟩ := RunWith.tableOk trivial hrun hfits hdurable hsmall
  refine ⟨?_, ?_, ?_, ?_, ?_⟩
  · intro i bytes hentry
    obtain ⟨rec, hhas, hrec, -⟩ := hok.records i bytes hentry
    have hbytes : bytes = encodeInodeRecord rec := Option.some.inj (hentry.symm.trans hhas.entry_eq)
    refine ⟨rec, ?_, hhas.inode_eq, hok.keys i (by rw [hentry]; rfl), hrec⟩
    rw [hbytes]
    exact View.decodeInodeRecord_encode hhas.fits
  · intro env i rec offset payload hget hclass
    exact append_ne_wrongMode hok hget (mode_of_classifyWrite_append hclass)
  · intro env i rec offset data hget hclass
    exact write_ne_wrongMode hget (mode_of_classifyWrite_random hclass)
  · intro i rec hget
    exact copiesInBounds_of_consistent (hok.records.of_getInode (Res.mapErr_eq_ok.mp hget)).2.1
  · intro env parent name redundancy uid gid unixMode now id w' p' hcreate
    exact createFile_fresh hok.keys hcreate

/-- The theorem at a session that creates, appends to, converts and overwrites a file. -/
theorem table_invariant_sample : ∃ bytes rec, Run 1 sampleSession.2.1 sampleSession.2.2 sampleEvents ∧
    sampleSession.2.2.metaStore.view.inodes[(2 : InodeId)]? = some bytes ∧
    decodeInodeRecord bytes = some (rec, []) ∧ rec.inode = 2 ∧ rec.Consistent := by
  have hsome : (sampleSession.2.2.metaStore.view.inodes[(2 : InodeId)]?).isSome = true := by decide +kernel
  obtain ⟨bytes, hentry⟩ := Option.isSome_iff_exists.mp hsome
  have hsession := play_inSession MetaStore.listOrder (World.blank 0) 1 0 sampleOps onDisk
  obtain ⟨htable, -⟩ := table_invariant run_sample.any (by decide +kernel) (beforeReopens_of_inSession hsession)
    (by decide +kernel)
  obtain ⟨rec, hdecode, hinode, -, hrec⟩ := htable 2 bytes hentry
  exact ⟨bytes, rec, run_sample, hentry, hdecode, hinode, hrec⟩

/-! ## A frame inside a name -/

/-- A record no pool makes: an append-only file made of extents. -/
def smuggled : InodeRecord :=
  { inode := 2, mode := .appendOnly, size := 0, redundancy := .replicated [], data := .extents [], uid := 3, gid := 0,
    unixMode := 0, mtimeUnix := 2 }

/-- The payload and the frame that would create it. The frame is text. -/
def smuggledPayload : Bytes := encodeOp MetaStore.listOrder (.createInode smuggled)

def smuggledFrame : String := String.ofList ((Wal.buildFrame smuggledPayload).map (fun b => Char.ofNat b.toNat))

theorem bytes_smuggledFrame : smuggledFrame.toUTF8.data.toList = Wal.buildFrame smuggledPayload := by decide +kernel

/-- A long text: `4 * 2^k` letters. -/
def filler : Nat → String
  | 0     => "aaaa"
  | k + 1 => filler k ++ filler k

theorem bytes_append (s t : String) :
    (s ++ t).toUTF8.data.toList = s.toUTF8.data.toList ++ t.toUTF8.data.toList := by
  simp [String.toByteArray_append]

theorem bytes_filler (k : Nat) : (filler k).toUTF8.data.toList = List.replicate (4 * 2 ^ k) 0x61 := by
  induction k with
  | zero => decide +kernel
  | succ k ih =>
      rw [filler, bytes_append, ih, List.replicate_append_replicate]
      congr 1
      omega

/-- A name that is longer than the log's region, with the frame one byte into it. -/
def smugglingName : String := "x" ++ (smuggledFrame ++ filler 24)

theorem bytes_smugglingName : smugglingName.toUTF8.data.toList =
    0x78 :: (Wal.buildFrame smuggledPayload ++ List.replicate (4 * 2 ^ 24) 0x61) := by
  rw [smugglingName, bytes_append, bytes_append, bytes_smuggledFrame, bytes_filler]
  rfl

/-- The frame of an unlink: 25 bytes, then the name. -/
theorem unlinkFrame_eq {ord : IterOrder} {parent : InodeId} {name : String} {first : UInt8} {rest : Bytes}
    (hname : name.toUTF8.data.toList = first :: rest) : (encodeOp ord (.unlink parent name)).length = 14 + rest.length ∧
    ∃ pre, pre.length = 26 ∧ MetaStore.opFrame ord (.unlink parent name) = pre ++ rest := by
  let head := Enc.u8 2 ++ (Enc.u64 parent ++ Enc.u32 (UInt32.ofNat name.toUTF8.data.toList.length))
  have hencode : encodeOp ord (.unlink parent name) = head ++ (first :: rest) := by
    rw [← hname]
    show Enc.u8 2 ++ (Enc.u64 parent ++ (Enc.u32 _ ++ _)) = _
    simp only [head, List.append_assoc]
  have hhead : head.length = 13 := by simp [head, Enc.u8, Enc.u64, Enc.u32]
  refine ⟨?_, Wal.frameHeader (encodeOp ord (.unlink parent name)) ++ (head ++ [first]), ?_, ?_⟩
  · rw [hencode, List.length_append, hhead, List.length_cons]
    omega
  · simp [hhead, Wal.headerLen]
  · rw [List.append_assoc, List.append_assoc, List.singleton_append, ← hencode]
    rfl

/-! ## The run that plants it -/

/-- A one-disk pool whose log ends at `c`. -/
structure Solo (p : Pool) (c : Nat) : Prop where
  wf : MetaWf p.metaStore
  primaryDisk_eq : p.metaStore.replicator.primaryDisk = 0
  cursor_eq : p.metaStore.walCursor = c

/-- An unlink on healthy disks writes its frame where the log ends. -/
theorem Solo.unlink {c : Nat} (h : Solo p c) (w : World) (name : String) : ∃ w' p',
    step (Env.healthy MetaStore.listOrder) (.unlink rootInode name) (w, p) = (.ok .unit, w', p') ∧
    w'.disk 0 = (w.disk 0).writeAt c (MetaStore.opFrame MetaStore.listOrder (.unlink rootInode name)) := by
  obtain ⟨w', s, happly, hstep⟩ := unlink_healthy MetaStore.listOrder w p rootInode name
  obtain ⟨hlog, -⟩ := MetaStore.apply_eq_ok h.wf.2 happly
  have hdisk := hlog.disk_eq
  rw [h.primaryDisk_eq, h.wf.1, h.cursor_eq, Nat.zero_add] at hdisk
  exact ⟨w', _, hstep, hdisk⟩

/-- A reopen where the log is a chain that stops. -/
theorem solo_reopen {ps : List Bytes} {c : Nat} {v : View} (hchain : Chain (Wal.probe (w.disk 0) 0) 0 ps c)
    (hstop : Wal.probe (w.disk 0) 0 c = .stop) (hv : View.empty.replay ps = .ok v) :
    ∃ p', openWithClasses w 1 [.hdd] = .ok p' ∧ Solo p' c ∧ p'.metaStore.view = v := by
  have hscan := scan_of_chain Wal.probe_bounded hchain hstop
  have hopen := MetaStore.openStore_of_scan (groupOf 1) (backupOf 1) hscan hv
  have hpool : openWithClasses w [DiskClass.hdd].length [.hdd] = _ := openWithClasses_of_openStore (by simp) hopen
  exact ⟨_, hpool, ⟨metaWf_open hopen, rfl, rfl⟩, rfl⟩

/-- The log of a freshly formatted disk. -/
theorem onDisk_log : ∃ ps v, Chain (Wal.probe (onDisk.1.disk 0) 0) 0 ps 61 ∧ View.empty.replay ps = .ok v ∧
    Solo onDisk.2 61 := by
  have hblank : ∀ i, ((createDisks (World.blank 0) 1).disk 0).bytes i = 0 := fun _ => rfl
  have hlen : (Wal.buildFrame (encodeOp MetaStore.listOrder (.createInode (rootRecord 1 0)))).length = 61 := by
    decide +kernel
  have hcap : 0 + (Wal.buildFrame (encodeOp MetaStore.listOrder (.createInode (rootRecord 1 0)))).length ≤
      Wal.walCapacityBytes := by
    rw [hlen]
    decide
  have hchain := Wal.chain_snoc (Wal.carries_nil hblank).chain hcap
  rw [hlen] at hchain
  obtain ⟨v, hv⟩ : ∃ v, View.empty.applyLocally (.createInode (rootRecord 1 0)) = .ok v := ⟨_, rfl⟩
  refine ⟨_, v, hchain, ?_, run_onDisk.wf.1, rfl, hlen⟩
  rw [View.replay_snoc, show View.empty.replay [] = .ok View.empty from rfl, Res.ok_bind,
    View.replayEntry_encodeOp _ _ (by decide), hv]

/-- The letters that fill a frame are not a header. -/
theorem probe_of_letters {d : FileDisk} {c m : Nat} (hm : 4 ≤ m) (h : Holds d.bytes c (List.replicate m 0x61)) :
    Wal.probe d 0 c = .stop := by
  refine Wal.probe_of_no_magic ?_
  unfold Holds at h
  rw [List.length_replicate] at h
  rw [Nat.zero_add, ← take_slice hm, h, List.take_replicate, Nat.min_eq_left hm]
  decide

/-- What the disk of a pool looks like after an unlink whose frame was cut off: the log as before, and past the place
    where a shorter frame would end, the rest of the name. -/
structure CutOff (d : FileDisk) (ps : List Bytes) (m : Nat) : Prop where
  chain : Chain (Wal.probe d 0) 0 ps 61
  stop : Wal.probe d 0 61 = .stop
  rest : Holds d.bytes 87 (Wal.buildFrame smuggledPayload ++ List.replicate m 0x61)
  len_le : 147 + m ≤ d.len

theorem length_smuggledFrame : (Wal.buildFrame smuggledPayload).length = 60 := by decide +kernel

/-- The unlink whose frame reaches past the region. -/
theorem cutOff_unlink {name : String} {ps : List Bytes} {m : Nat} {d : FileDisk}
    (hname : name.toUTF8.data.toList = 0x78 :: (Wal.buildFrame smuggledPayload ++ List.replicate m 0x61))
    (hcut : Wal.walCapacityBytes < 147 + m) (hm : 74 + m < 2 ^ 32) (hchain : Chain (Wal.probe d 0) 0 ps 61) :
    CutOff (d.writeAt 61 (MetaStore.opFrame MetaStore.listOrder (.unlink rootInode name))) ps m := by
  obtain ⟨hencode, pre, hpre, hframe⟩ := unlinkFrame_eq hname
  rw [List.length_append, length_smuggledFrame, List.length_replicate] at hencode
  have hlen : (MetaStore.opFrame MetaStore.listOrder (.unlink rootInode name)).length = 86 + m := by
    rw [hframe, List.length_append, List.length_append, hpre, length_smuggledFrame, List.length_replicate]
    omega
  have hheld := holds_patch_self d.bytes 61 (MetaStore.opFrame MetaStore.listOrder (.unlink rootInode name))
  have hne : MetaStore.opFrame MetaStore.listOrder (.unlink rootInode name) ≠ [] := by
    intro hnil
    rw [hnil, List.length_nil] at hlen
    omega
  refine ⟨Wal.chain_writeAt hchain (by omega), ?_, ?_, ?_⟩
  · refine Wal.probe_of_cut_frame (by rw [Nat.zero_add]; exact (holds_append.mp hheld).1) (by omega) ?_
    rw [Wal.length_buildFrame, hencode]
    unfold Wal.headerLen
    omega
  · have hrest := hheld
    rw [hframe] at hrest
    have h := (holds_append.mp hrest).2
    rw [hpre] at h
    rw [hframe]
    exact h
  · have hend := (FileDisk.writeAt_end_le d 61 _).resolve_left hne
    rw [hlen] at hend
    omega

/-- The shorter unlink that makes the rest of the name the next entry of the log. -/
theorem CutOff.chain_unlink {d : FileDisk} {ps : List Bytes} {m : Nat} (h : CutOff d ps m) :
    let d' := d.writeAt 61 (MetaStore.opFrame MetaStore.listOrder idleUnlink)
    Chain (Wal.probe d' 0) 0 (ps ++ [encodeOp MetaStore.listOrder idleUnlink] ++ [smuggledPayload]) 147 ∧
      Holds d'.bytes 147 (List.replicate m 0x61) := by
  intro d'
  have hshort : (Wal.buildFrame (encodeOp MetaStore.listOrder idleUnlink)).length = 26 := length_idleUnlink
  have hchain : Chain (Wal.probe d' 0) 0 (ps ++ [encodeOp MetaStore.listOrder idleUnlink]) 87 := by
    have hfit : 61 + (Wal.buildFrame (encodeOp MetaStore.listOrder idleUnlink)).length ≤ Wal.walCapacityBytes := by
      rw [hshort]
      decide
    have hsnoc := Wal.chain_snoc h.chain hfit
    rw [hshort, Nat.zero_add] at hsnoc
    exact hsnoc
  have hrest : Holds d'.bytes 87 (Wal.buildFrame smuggledPayload ++ List.replicate m 0x61) :=
    h.rest.patch_disjoint (Or.inr (by rw [length_idleUnlink]))
  obtain ⟨hplanted, hletters⟩ := holds_append.mp hrest
  have hend : 147 + m ≤ d'.len := Nat.le_trans h.len_le (FileDisk.len_le_writeAt _ _ _)
  have hentry : Wal.probe d' 0 87 = .entry smuggledPayload (Wal.buildFrame smuggledPayload).length := by
    refine Wal.probe_of_frame (by rw [Nat.zero_add]; exact hplanted) ?_ ?_
    · rw [length_smuggledFrame]
      omega
    · rw [length_smuggledFrame]
      decide
  rw [length_smuggledFrame] at hentry hletters
  exact ⟨hchain.snoc hentry, hletters⟩

/-- **The planting run.** After an unlink whose frame was cut off at the end of the region, and a shorter one written over
    its beginning, a reopen takes what the long name spells for a log entry. -/
theorem plant_record {name : String} {m : Nat}
    (hname : name.toUTF8.data.toList = 0x78 :: (Wal.buildFrame smuggledPayload ++ List.replicate m 0x61))
    (hcut : Wal.walCapacityBytes < 147 + m) (hm : 74 + m < 2 ^ 32) : ∃ w p events, Run 1 w p events ∧
    (∀ e ∈ events, e.Healthy) ∧ (∀ e ∈ events, e.SmallConversion) ∧ p.getInode 2 = .ok (some smuggled) := by
  obtain ⟨ps, v₀, hchain, hv₀, hsolo⟩ := onDisk_log
  obtain ⟨w₁, p₁, hstep₁, hdisk₁⟩ := hsolo.unlink onDisk.1 name
  have hcutoff : CutOff (w₁.disk 0) ps m := by
    rw [hdisk₁]
    exact cutOff_unlink hname hcut hm hchain
  obtain ⟨p₂, hopen₂, hsolo₂, -⟩ := solo_reopen hcutoff.chain hcutoff.stop hv₀
  obtain ⟨w₃, p₃, hstep₃, hdisk₃⟩ := hsolo₂.unlink w₁ "a"
  obtain ⟨hchain₃, hletters⟩ := hcutoff.chain_unlink
  have hdisk : (w₁.disk 0).writeAt 61 (MetaStore.opFrame MetaStore.listOrder idleUnlink) = w₃.disk 0 := hdisk₃.symm
  rw [hdisk] at hchain₃ hletters
  -- the last reopen replays the short unlink and then the planted operation
  obtain ⟨v₁, hv₁⟩ : ∃ v₁, v₀.applyLocally idleUnlink = .ok v₁ := ⟨_, rfl⟩
  obtain ⟨v₂, hv₂, hentry⟩ : ∃ v₂, v₁.applyLocally (.createInode smuggled) = .ok v₂ ∧
      v₂.inodes[(2 : InodeId)]? = some (encodeInodeRecord smuggled) := by
    refine ⟨_, rfl, ?_⟩
    exact (View.getElem?_insert_record v₁ smuggled 2).trans (if_pos rfl)
  have hreplay : View.empty.replay (ps ++ [encodeOp MetaStore.listOrder idleUnlink] ++ [smuggledPayload]) =
      .ok v₂ := by
    rw [View.replay_snoc, View.replay_snoc, hv₀, Res.ok_bind, View.replayEntry_encodeOp _ _ (by decide), hv₁,
      Res.ok_bind, smuggledPayload, View.replayEntry_encodeOp _ _ (by decide), hv₂]
  have hcap : Wal.walCapacityBytes = 67108864 := rfl
  obtain ⟨p₄, hopen₄, -, hview⟩ := solo_reopen hchain₃ (probe_of_letters (by omega) hletters) hreplay
  have hrun := (((run_onDisk.call _ _ hstep₁ (by simp)).reopen hopen₂ rfl).call _ _ hstep₃ (by simp)).reopen hopen₄ rfl
  refine ⟨_, _, _, hrun, ?_, ?_, ?_⟩
  · intro e he
    simp only [List.cons_append, List.nil_append, List.mem_cons, List.not_mem_nil, or_false] at he
    rcases he with rfl | rfl | rfl | rfl | rfl
    · exact rfl
    · exact rfl
    · exact trivial
    · exact rfl
    · exact trivial
  · intro e he
    simp only [List.cons_append, List.nil_append, List.mem_cons, List.not_mem_nil, or_false] at he
    rcases he with rfl | rfl | rfl | rfl | rfl
    all_goals exact trivial
  · show liftMeta (p₄.metaStore.view.getInode 2) = _
    unfold View.getInode
    have hdecode : decodeInodeRecord (encodeInodeRecord smuggled) = _ := View.decodeInodeRecord_encode (by decide)
    rw [hview, hentry]
    simp only [hdecode, liftMeta, Res.mapErr]

/-- Beyond the region the table breaks: a run on healthy disks, all of whose requests are accepted and none of whose
    files is ever converted, ends with an append-only file made of extents. -/
theorem smuggled_record : ∃ w p events rec, Run 1 w p events ∧ (∀ e ∈ events, e.Healthy) ∧ ReopenedDurable events ∧
    (∀ e ∈ events, e.SmallConversion) ∧ p.getInode 2 = .ok (some rec) ∧ rec.mode = .appendOnly ∧
    rec.data = .extents [] := by
  have hcut : Wal.walCapacityBytes < 147 + 4 * 2 ^ 24 := by decide
  obtain ⟨w, p, events, hrun, hhealthy, hsmall, hget⟩ := plant_record bytes_smugglingName hcut (by decide)
  exact ⟨w, p, events, smuggled, hrun, hhealthy, beforeReopens_of_healthy hhealthy (fun _ _ => primaryUp_of_healthy),
    hsmall, hget, rfl, rfl⟩

end Pool

end Tartine
