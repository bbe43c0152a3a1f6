import Tartine.Core.Segment
import Tartine.Meta.Recovery

/-!
# `Meta.Table` — the inode table as a table of records

The tables hold encoded bytes; this module reads them as records. `View.RecStep` says which record an accepted
operation leaves behind, in the words of `apply_locally` and without any encoding, and `View.Each` says that every entry
of the table is the encoding of a record with some property.

* `applyLocally_cases` — an accepted operation leaves the table alone, or replaces one record by a `RecStep`;
* `Each.applyLocally` — so a property of all records is kept if every `RecStep` keeps it;
* `RecStep.allReplicas` — in particular one about where the replicas of every file lie;
* `isSome_applyLocally` — no entry ever leaves the table.
-/

namespace Tartine

open Basis Codec Kcore

theorem stepMode_beginConvert {msg : String} {mode mode' : InodeMode} :
    stepMode tartineBeginConvert msg mode = .ok mode' ↔ mode = .appendOnly ∧ mode' = .converting := by
  cases mode <;> cases mode' <;> simp [stepMode, modeToU32, u32ToMode, tartineBeginConvert, modeAppendOnly,
    modeConverting, modeWritable, errAlreadyWritable, errAlreadyConverting]

theorem stepMode_completeConvert {msg : String} {mode mode' : InodeMode} :
    stepMode tartineCompleteConvert msg mode = .ok mode' ↔ mode = .converting ∧ mode' = .writable := by
  cases mode <;> cases mode' <;> simp [stepMode, modeToU32, u32ToMode, tartineCompleteConvert, modeAppendOnly,
    modeConverting, modeWritable, errBadMode]

/-- The number of chunks of a record. -/
def InodeRecord.chunkCount (rec : InodeRecord) : Nat :=
  match rec.data with
  | .chunkLog chunks => chunks.length
  | .extents _       => 0

/-- The inode whose record an operation stores. -/
def MetaOp.target : MetaOp → Option InodeId
  | .createInode rec             => some rec.inode
  | .appendChunk inode _         => some inode
  | .beginConvert inode          => some inode
  | .completeConvert inode _     => some inode
  | .setRedundancyScheme inode _ => some inode
  | .updateExtents inode _       => some inode
  | _                            => none

/-- What replicas a locator names: `Q headerLen len replicas` for the replicas of each chunk and each extent, whose `len`
    bytes start `headerLen` past a replica's offset. -/
def DataLocator.AllReplicas (Q : Nat → Nat → List (DiskId × UInt64) → Prop) : DataLocator → Prop
  | .chunkLog chunks => ∀ c ∈ chunks, Q Segment.headerLen c.len.toNat c.replicas
  | .extents xs      => ∀ x ∈ xs, Q 0 x.len.toNat x.replicas

/-- What replicas an operation writes into the table. -/
def MetaOp.AllReplicas (Q : Nat → Nat → List (DiskId × UInt64) → Prop) : MetaOp → Prop
  | .createInode rec           => rec.data.AllReplicas Q
  | .appendChunk _ chunk       => Q Segment.headerLen chunk.len.toNat chunk.replicas
  | .completeConvert _ extents => (DataLocator.extents extents).AllReplicas Q
  | .updateExtents _ extents   => (DataLocator.extents extents).AllReplicas Q
  | _                          => True

/-- A record whose replicas are as `Q` says, with at most `k` chunks. -/
def InodeRecord.Lists (Q : Nat → Nat → List (DiskId × UInt64) → Prop) (k : Nat) (rec : InodeRecord) : Prop :=
  rec.data.AllReplicas Q ∧ rec.chunkCount ≤ k

theorem DataLocator.AllReplicas.mono {Q Q' : Nat → Nat → List (DiskId × UInt64) → Prop} {data : DataLocator}
    (h : data.AllReplicas Q) (hQ : ∀ headerLen len replicas, Q headerLen len replicas → Q' headerLen len replicas) :
    data.AllReplicas Q' := by
  cases data with
  | chunkLog chunks => exact fun c hc => hQ _ _ _ (h c hc)
  | extents xs => exact fun x hx => hQ _ _ _ (h x hx)

theorem DataLocator.AllReplicas.of_forall {Q : Nat → Nat → List (DiskId × UInt64) → Prop}
    (hQ : ∀ headerLen len replicas, Q headerLen len replicas) (data : DataLocator) : data.AllReplicas Q := by
  cases data with
  | chunkLog chunks => exact fun c _ => hQ _ _ _
  | extents xs => exact fun x _ => hQ _ _ _

namespace View

/-! ## What an accepted operation does to the table -/

/-- The record an operation leaves behind, from the one it found. -/
inductive RecStep (v : View) : MetaOp → InodeRecord → Prop where
  | createInode {rec} : RecStep v (.createInode rec) rec
  | appendChunk {inode chunk rec chunks size} (hrec : v.readInode inode = .ok rec) (hdata : rec.data = .chunkLog chunks)
      (hsize : size.toNat = rec.size.toNat + chunk.len.toNat) :
      RecStep v (.appendChunk inode chunk) { rec with data := .chunkLog (chunks ++ [chunk]), size := size }
  | beginConvert {inode rec} (hrec : v.readInode inode = .ok rec) (hmode : rec.mode = .appendOnly) :
      RecStep v (.beginConvert inode) { rec with mode := .converting }
  | completeConvert {inode extents rec} (hrec : v.readInode inode = .ok rec) (hmode : rec.mode = .converting) :
      RecStep v (.completeConvert inode extents) { rec with mode := .writable, data := .extents extents }
  | setRedundancyScheme {inode scheme rec} (hrec : v.readInode inode = .ok rec) :
      RecStep v (.setRedundancyScheme inode scheme) { rec with redundancy := scheme }
  | updateExtents {inode extents rec ends} (hrec : v.readInode inode = .ok rec) (hmode : rec.mode = .writable)
      (hends : extentEnds extents = .ok ends) :
      RecStep v (.updateExtents inode extents) { rec with size := ends.foldl max 0, data := .extents extents }

/-- **Every accepted operation** leaves the inode table alone, or stores the record of a `RecStep`. -/
theorem applyLocally_cases {v u : View} {op : MetaOp} (h : v.applyLocally op = .ok u) :
    (u.inodes = v.inodes ∧ op.target = none) ∨
      ∃ rec, v.RecStep op rec ∧ u.inodes = v.inodes.insert rec.inode (encodeInodeRecord rec) := by
  cases op with
  | createInode rec =>
      obtain ⟨next, -, hu⟩ := Res.bind_eq_ok.mp h
      obtain rfl := Res.ok.inj hu
      exact Or.inr ⟨rec, .createInode, rfl⟩
  | link parent name child =>
      obtain rfl := Res.ok.inj h
      exact Or.inl ⟨rfl, rfl⟩
  | unlink parent name =>
      obtain rfl := Res.ok.inj h
      exact Or.inl ⟨rfl, rfl⟩
  | appendChunk inode chunk =>
      obtain ⟨rec, hrec, hu⟩ := Res.bind_eq_ok.mp h
      cases hdata : rec.data with
      | extents xs => rw [hdata] at hu; cases hu
      | chunkLog chunks =>
          rw [hdata] at hu
          obtain ⟨size, hsize, hu⟩ := Res.bind_eq_ok.mp hu
          obtain rfl := Res.ok.inj hu
          have hlen : chunk.len.toUInt64.toNat = chunk.len.toNat := UInt32.toNat_toUInt64 _
          exact Or.inr ⟨_, .appendChunk hrec hdata (by rw [← hlen]; exact Res.checkedAdd_eq_ok.mp hsize), rfl⟩
  | beginConvert inode =>
      obtain ⟨rec, hrec, hu⟩ := Res.bind_eq_ok.mp h
      obtain ⟨mode, hmode, hu⟩ := Res.bind_eq_ok.mp hu
      obtain rfl := Res.ok.inj hu
      obtain ⟨hold, rfl⟩ := stepMode_beginConvert.mp hmode
      exact Or.inr ⟨_, .beginConvert hrec hold, rfl⟩
  | completeConvert inode extents =>
      obtain ⟨rec, hrec, hu⟩ := Res.bind_eq_ok.mp h
      obtain ⟨mode, hmode, hu⟩ := Res.bind_eq_ok.mp hu
      obtain rfl := Res.ok.inj hu
      obtain ⟨hold, rfl⟩ := stepMode_completeConvert.mp hmode
      exact Or.inr ⟨_, .completeConvert hrec hold, rfl⟩
  | setRedundancyScheme inode scheme =>
      obtain ⟨rec, hrec, hu⟩ := Res.bind_eq_ok.mp h
      obtain rfl := Res.ok.inj hu
      exact Or.inr ⟨_, .setRedundancyScheme hrec, rfl⟩
  | updateExtents inode extents =>
      obtain ⟨rec, hrec, hu⟩ := Res.bind_eq_ok.mp h
      split at hu
      · cases hu
      · rename_i hmode
        obtain ⟨ends, hends, hu⟩ := Res.bind_eq_ok.mp hu
        obtain rfl := Res.ok.inj hu
        exact Or.inr ⟨_, .updateExtents hrec (not_not.mp hmode) hends, rfl⟩
  | poolMapChange pm =>
      obtain rfl := Res.ok.inj h
      exact Or.inl ⟨rfl, rfl⟩
  | metaGroupChange mg =>
      obtain rfl := Res.ok.inj h
      exact Or.inl ⟨rfl, rfl⟩

/-! ## Properties of every record -/

/-- Entry `i` of the table is the encoding of a record numbered `i`. -/
structure Has (v : View) (i : InodeId) (rec : InodeRecord) : Prop where
  entry_eq : v.inodes[i]? = some (encodeInodeRecord rec)
  fits : rec.Fits
  inode_eq : rec.inode = i

variable {v u : View} {i : InodeId} {rec : InodeRecord} {op : MetaOp}

theorem decodeInodeRecord_encode (h : rec.Fits) : decodeInodeRecord (encodeInodeRecord rec) = some (rec, []) := by
  have := reads_inodeRecord h []
  rwa [List.append_nil] at this

/-- The two readers of the inode table agree on what is there. -/
theorem readInode_iff_getInode : v.readInode i = .ok rec ↔ v.getInode i = .ok (some rec) := by
  unfold readInode getInode
  cases v.inodes[i]? with
  | none => simp
  | some bytes =>
      dsimp only
      cases decodeInodeRecord bytes with
      | none => simp
      | some r => simp

theorem Has.readInode_eq (h : v.Has i rec) : v.readInode i = .ok rec := by
  unfold readInode
  rw [h.entry_eq]
  simp only [decodeInodeRecord_encode h.fits]

theorem Has.getInode_eq (h : v.Has i rec) : v.getInode i = .ok (some rec) := by
  unfold getInode
  rw [h.entry_eq]
  simp only [decodeInodeRecord_encode h.fits]

/-- Every entry is the encoding of a record under its own number, and the record has the property. -/
def Each (v : View) (P : InodeRecord → Prop) : Prop :=
  ∀ i bytes, v.inodes[i]? = some bytes → ∃ rec, v.Has i rec ∧ P rec

variable {P Q : InodeRecord → Prop}

theorem each_empty : empty.Each P := by
  intro i bytes h
  simp [empty] at h

/-- A record that was read has the property. -/
theorem Each.of_readInode (hv : v.Each P) (h : v.readInode i = .ok rec) : v.Has i rec ∧ P rec := by
  cases hentry : v.inodes[i]? with
  | none => simp [readInode, hentry] at h
  | some bytes =>
      obtain ⟨rec', hhas, hP⟩ := hv i bytes hentry
      rw [hhas.readInode_eq] at h
      obtain rfl := Res.ok.inj h
      exact ⟨hhas, hP⟩

theorem Each.of_getInode (hv : v.Each P) (h : v.getInode i = .ok (some rec)) : v.Has i rec ∧ P rec := by
  cases hentry : v.inodes[i]? with
  | none => simp [getInode, hentry] at h
  | some bytes =>
      obtain ⟨rec', hhas, hP⟩ := hv i bytes hentry
      rw [hhas.getInode_eq] at h
      obtain rfl := Option.some.inj (Res.ok.inj h)
      exact ⟨hhas, hP⟩

theorem Each.mono (hv : v.Each P) (h : ∀ rec, P rec → Q rec) : v.Each Q := by
  intro i bytes hentry
  obtain ⟨rec, hhas, hP⟩ := hv i bytes hentry
  exact ⟨rec, hhas, h rec hP⟩

/-- Only the inode table matters. -/
theorem Each.of_inodes_eq (hv : v.Each P) (h : u.inodes = v.inodes) : u.Each P := by
  intro i bytes hentry
  rw [h] at hentry
  obtain ⟨rec, hhas, hP⟩ := hv i bytes hentry
  exact ⟨rec, ⟨by rw [h]; exact hhas.entry_eq, hhas.fits, hhas.inode_eq⟩, hP⟩

/-- The table after one record was stored. -/
theorem getElem?_insert_record (v : View) (rec : InodeRecord) (i : InodeId) :
    (v.inodes.insert rec.inode (encodeInodeRecord rec))[i]? =
      if rec.inode = i then some (encodeInodeRecord rec) else v.inodes[i]? := by
  rw [Std.ExtTreeMap.getElem?_insert]
  simp only [Std.LawfulEqCmp.compare_eq_iff_eq]

/-- The record an operation stores carries the number the operation names, and is new only for `CreateInode`. -/
theorem RecStep.target_eq (hv : v.Each P) (hstep : v.RecStep op rec) :
    op.target = some rec.inode ∧ (op = .createInode rec ∨ (v.inodes[rec.inode]?).isSome) := by
  have hread : ∀ {i rec}, v.readInode i = .ok rec → some i = some rec.inode ∧ (v.inodes[rec.inode]?).isSome := by
    intro i rec hrec
    obtain ⟨hhas, -⟩ := hv.of_readInode hrec
    rw [hhas.inode_eq, hhas.entry_eq]
    exact ⟨rfl, rfl⟩
  cases hstep with
  | createInode => exact ⟨rfl, Or.inl rfl⟩
  | appendChunk hrec hdata hsize => exact ⟨(hread hrec).1, Or.inr (hread hrec).2⟩
  | beginConvert hrec hmode => exact ⟨(hread hrec).1, Or.inr (hread hrec).2⟩
  | completeConvert hrec hmode => exact ⟨(hread hrec).1, Or.inr (hread hrec).2⟩
  | setRedundancyScheme hrec => exact ⟨(hread hrec).1, Or.inr (hread hrec).2⟩
  | updateExtents hrec hmode hends => exact ⟨(hread hrec).1, Or.inr (hread hrec).2⟩

/-- **Step lemma.** A property of all records is kept if it is kept for the records an operation leaves alone, and the
    record it stores has it. -/
theorem Each.applyLocally (hv : v.Each P) (h : v.applyLocally op = .ok u)
    (hold : ∀ rec, P rec → op.target ≠ some rec.inode → Q rec)
    (hnew : ∀ rec, v.RecStep op rec → rec.Fits ∧ Q rec) : u.Each Q := by
  rcases applyLocally_cases h with ⟨hsame, hnone⟩ | ⟨rec, hstep, hinsert⟩
  · exact (hv.mono (fun rec hP => hold rec hP (by rw [hnone]; simp))).of_inodes_eq hsame
  · intro i bytes hentry
    obtain ⟨hfits, hQ⟩ := hnew rec hstep
    obtain ⟨htarget, -⟩ := hstep.target_eq hv
    by_cases hi : rec.inode = i
    · exact ⟨rec, ⟨by rw [hinsert, getElem?_insert_record, if_pos hi], hfits, hi⟩, hQ⟩
    · rw [hinsert, getElem?_insert_record, if_neg hi] at hentry
      obtain ⟨rec', hhas, hP⟩ := hv i bytes hentry
      refine ⟨rec', ⟨by rw [hinsert, getElem?_insert_record, if_neg hi]; exact hhas.entry_eq, hhas.fits,
        hhas.inode_eq⟩, hold rec' hP ?_⟩
      rw [htarget, hhas.inode_eq]
      exact fun hsame => hi (Option.some.inj hsame)

/-- The record an operation leaves behind, if what the operation writes is as `Q` says. Its lists are still short enough
    to be encoded: no list was logged in one piece that does not fit, and chunks are logged one by one. -/
theorem RecStep.allReplicas {Q : Nat → Nat → List (DiskId × UInt64) → Prop} {k : Nat} (hk : k + 1 < 2 ^ 32)
    (hv : v.Each (InodeRecord.Lists Q k)) (hfits : op.Fits) (hop : op.AllReplicas Q)
    (hnew : ∀ rec, op = .createInode rec → rec.chunkCount = 0) (hstep : v.RecStep op rec) :
    rec.Fits ∧ rec.Lists Q (k + 1) := by
  cases hstep with
  | createInode => exact ⟨hfits, hop, by rw [hnew _ rfl]; exact Nat.zero_le _⟩
  | @appendChunk _ chunk old chunks size hrec hdata hsize =>
      obtain ⟨hhas, hold, hcount⟩ := hv.of_readInode hrec
      have hlists := hhas.fits.2
      rw [hdata] at hlists hold
      rw [InodeRecord.chunkCount, hdata] at hcount
      refine ⟨⟨hhas.fits.1, ?_, ?_⟩, ?_, ?_⟩
      · rw [List.length_append, List.length_singleton]
        exact Nat.lt_of_le_of_lt (Nat.add_le_add_right hcount 1) hk
      · exact List.forall_mem_append.mpr ⟨hlists.2, List.forall_mem_singleton.mpr hfits⟩
      · exact List.forall_mem_append.mpr ⟨hold, List.forall_mem_singleton.mpr hop⟩
      · show (chunks ++ [chunk]).length ≤ k + 1
        rw [List.length_append, List.length_singleton]
        exact Nat.add_le_add_right hcount 1
  | beginConvert hrec hmode =>
      obtain ⟨hhas, hold, hcount⟩ := hv.of_readInode hrec
      exact ⟨hhas.fits, hold, Nat.le_succ_of_le hcount⟩
  | completeConvert hrec hmode =>
      obtain ⟨hhas, -⟩ := hv.of_readInode hrec
      exact ⟨⟨hhas.fits.1, hfits⟩, hop, Nat.zero_le _⟩
  | setRedundancyScheme hrec =>
      obtain ⟨hhas, hold, hcount⟩ := hv.of_readInode hrec
      exact ⟨⟨hfits, hhas.fits.2⟩, hold, Nat.le_succ_of_le hcount⟩
  | updateExtents hrec hmode hends =>
      obtain ⟨hhas, -⟩ := hv.of_readInode hrec
      exact ⟨⟨hhas.fits.1, hfits⟩, hop, Nat.zero_le _⟩

/-! ## Which inodes there are -/

/-- An accepted operation leaves every entry alone but that of the inode it names. -/
theorem getElem?_applyLocally (hv : v.Each P) (h : v.applyLocally op = .ok u) (ht : op.target ≠ some i) :
    u.inodes[i]? = v.inodes[i]? := by
  rcases applyLocally_cases h with ⟨hsame, -⟩ | ⟨rec, hstep, hinsert⟩
  · rw [hsame]
  · obtain ⟨htarget, -⟩ := hstep.target_eq hv
    rw [hinsert, getElem?_insert_record, if_neg]
    rintro rfl
    exact ht htarget

/-- The inode an accepted operation names has the record of its step. -/
theorem has_applyLocally (hv : v.Each P) (h : v.applyLocally op = .ok u) (ht : op.target = some i)
    (hfits : ∀ rec, v.RecStep op rec → rec.Fits) : ∃ rec, v.RecStep op rec ∧ u.Has i rec := by
  rcases applyLocally_cases h with ⟨-, hnone⟩ | ⟨rec, hstep, hinsert⟩
  · rw [hnone] at ht
    cases ht
  · obtain ⟨htarget, -⟩ := hstep.target_eq hv
    obtain rfl := Option.some.inj (htarget.symm.trans ht)
    refine ⟨rec, hstep, ?_, hfits rec hstep, rfl⟩
    rw [hinsert, getElem?_insert_record, if_pos rfl]

/-- No entry ever leaves the table. -/
theorem isSome_applyLocally (h : v.applyLocally op = .ok u) (hi : (v.inodes[i]?).isSome) :
    (u.inodes[i]?).isSome := by
  rcases applyLocally_cases h with ⟨hsame, -⟩ | ⟨rec, hstep, hinsert⟩
  · rw [hsame]
    exact hi
  · rw [hinsert, getElem?_insert_record]
    split
    · rfl
    · exact hi

/-- A created inode is in the table. -/
theorem isSome_createInode (h : v.applyLocally (.createInode rec) = .ok u) : (u.inodes[rec.inode]?).isSome := by
  obtain ⟨next, -, hu⟩ := Res.bind_eq_ok.mp h
  obtain rfl := Res.ok.inj hu
  show ((v.inodes.insert rec.inode (encodeInodeRecord rec))[rec.inode]?).isSome
  rw [getElem?_insert_record, if_pos rfl]
  rfl

/-- Every inode number in the table was handed out. -/
def KeysBelow (v : View) : Prop := ∀ i : InodeId, (v.inodes[i]?).isSome → i.toNat < v.nextInode.toNat

theorem KeysBelow.applyLocally (hk : v.KeysBelow) (hv : v.Each P) (h : v.applyLocally op = .ok u) : u.KeysBelow := by
  have hnext := nextInode_le_applyLocally h
  intro i hi
  rcases applyLocally_cases h with ⟨hsame, -⟩ | ⟨rec, hstep, hinsert⟩
  · rw [hsame] at hi
    exact Nat.lt_of_lt_of_le (hk i hi) hnext
  · rw [hinsert, getElem?_insert_record] at hi
    split at hi
    · rename_i hrec
      subst hrec
      rcases (hstep.target_eq hv).2 with rfl | hold
      · exact created_lt_applyLocally h
      · exact Nat.lt_of_lt_of_le (hk _ hold) hnext
    · exact Nat.lt_of_lt_of_le (hk i hi) hnext

end View

/-- **Step lemma** of `MetaStore::apply`, for properties of records that may depend on how long the log is. Accepted or
    refused, the operation leaves records as they were, and at most one new one. -/
theorem MetaStore.each_apply {P Q : Nat → InodeRecord → Prop} {env : Env} {w w' : World} {s s' : MetaStore}
    {op : MetaOp} {res : Res MetaStoreError Unit} (hne : s.replicator.backupDisk ≠ some s.replicator.primaryDisk)
    (hv : s.view.Each (P s.walCursor)) (hk : s.view.KeysBelow) (happly : s.apply env w op = (res, w', s'))
    (hres : res ≠ .panic) (hmono : ∀ k rec, s.walCursor ≤ k → P s.walCursor rec → Q k rec)
    (hnew : ∀ rec, s.view.RecStep op rec → rec.Fits ∧ ∀ k, s.walCursor + 1 ≤ k → Q k rec) :
    s'.view.Each (Q s'.walCursor) ∧ s'.view.KeysBelow := by
  rcases MetaStore.apply_primary hne happly hres with ⟨hlog, hview⟩ | ⟨-, rfl, -⟩
  · have hcur : s.walCursor + 1 ≤ s'.walCursor := by
      rw [hlog.cursor_eq, MetaStore.opFrame, Wal.length_buildFrame]
      unfold Wal.headerLen
      omega
    rcases hview with ⟨u, hu, -, rfl⟩ | ⟨e, -, -, hsame⟩
    · refine ⟨hv.applyLocally hu ?_ ?_, hk.applyLocally hv hu⟩
      · exact fun rec hrec _ => hmono _ rec (by omega) hrec
      · intro rec hstep
        obtain ⟨hfits, hQ⟩ := hnew rec hstep
        exact ⟨hfits, hQ _ hcur⟩
    · rw [hsame]
      exact ⟨hv.mono (fun rec hrec => hmono _ rec (by omega) hrec), hk⟩
  · exact ⟨hv.mono (fun rec hrec => hmono _ rec (Nat.le_refl _) hrec), hk⟩

/-- An inode number handed out is above every number in the table. -/
theorem MetaStore.keysBelow_alloc {s s' : MetaStore} {id : InodeId} (hk : s.view.KeysBelow)
    (h : s.allocInode = .ok (id, s')) : s'.view.KeysBelow ∧ s.view.inodes[id]? = none := by
  obtain ⟨next, hnext, hs⟩ := Res.bind_eq_ok.mp h
  obtain ⟨rfl, rfl⟩ := Prod.mk.inj (Res.ok.inj hs)
  constructor
  · intro i hi
    have hlt := hk i hi
    have hadd := Res.checkedAdd_eq_ok.mp hnext
    show i.toNat < next.toNat
    rw [hadd]
    exact Nat.lt_of_lt_of_le hlt (Nat.le_add_right _ _)
  · cases hentry : s.view.inodes[s.view.nextInode]? with
    | none => rfl
    | some bytes =>
        have := hk s.view.nextInode (by rw [hentry]; rfl)
        omega

end Tartine
