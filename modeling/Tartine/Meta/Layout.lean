import Tartine.Meta.PoolData

/-!
# `Meta.Layout` — which bytes of a disk are written, and for what

`pool.rs` lays a disk out as a reserve for a superblock, then the log's region, then the data region. The pool adds the
base of the data region to every cursor, but opens its metadata store at offset **zero**: reader and writer of the log
agree on it, and the log's first bytes lie in the reserve.

A `Write` is one call of `write_at`. `MetaCall.writes` and `dataWrites` list the writes an operation issues, for the log
and for file data, and `step_frame` says that there are no others: a byte outside all of them stays.

* `layout_respected_iff` — a run within the capacities respects the layout exactly if every operation it hands to the
  log finds the log longer than the reserve;
* `format_breaks_layout` — which the root directory's entry never does.
-/

namespace Tartine

open Basis

/-- One call of `write_at`: the disk, the first byte and the number of bytes. -/
structure Write where
  disk : DiskRef
  offset : Nat
  len : Nat
  deriving DecidableEq, Repr

/-- The write is asked to store this byte. -/
def Write.Covers (x : Write) (r : DiskRef) (i : Nat) : Prop := x.disk = r ∧ x.offset ≤ i ∧ i < x.offset + x.len

theorem World.writeSync_frame {env : Env} {w w' : World} {d r : DiskRef} {off i : Nat} {buf : Bytes}
    {res : Except IoError Unit} (h : w.writeSync env d off buf = (res, w'))
    (hi : ¬(⟨d, off, buf.length⟩ : Write).Covers r i) : (w'.disk r).bytes i = (w.disk r).bytes i := by
  have hleft : ∀ {left : Bytes} {k : Nat}, left.length ≤ buf.length →
      w' = { w.setDisk d ((w.disk d).writeAt off left) with clock := k } → (w'.disk r).bytes i = (w.disk r).bytes i := by
    rintro left k hlen rfl
    by_cases hr : d = r
    · subst hr
      rw [show World.disk _ d = _ from World.setDisk_self, FileDisk.writeAt_bytes]
      refine patch_of_not_mem ?_
      by_contra hin
      exact hi ⟨rfl, show off ≤ i by omega, show i < off + buf.length by omega⟩
    · rw [show World.disk _ r = _ from World.setDisk_of_ne (Ne.symm hr)]
  rcases World.writeSync_cases env w d off buf with ⟨k, hw⟩ | ⟨left, k, hlen, hw⟩
  · exact hleft (Nat.le_refl _) (congrArg Prod.snd (h.symm.trans hw))
  · exact hleft hlen (congrArg Prod.snd (h.symm.trans hw))

namespace Pool

/-! ## The log's writes -/

/-- Where the call's frame goes. -/
def MetaCall.offset (c : MetaCall) : Nat := c.store.walBaseOffset + c.store.walCursor

/-- The writes of one call of `MetaStore::apply`: the primary's, and once that is durable the backup's. -/
def MetaCall.writes (c : MetaCall) : List Write :=
  match c.world.writeSync c.env c.store.replicator.primaryDisk c.offset c.frame with
  | (.error _, _) => [⟨c.store.replicator.primaryDisk, c.offset, c.frame.length⟩]
  | (.ok (), _)   =>
      ⟨c.store.replicator.primaryDisk, c.offset, c.frame.length⟩ ::
        c.store.replicator.backupDisk.toList.map (fun b => ⟨b, c.offset, c.frame.length⟩)

theorem MetaCall.mem_writes {c : MetaCall} {x : Write} (hx : x ∈ c.writes) :
    x.offset = c.offset ∧ x.len = c.frame.length := by
  unfold MetaCall.writes at hx
  split at hx
  · obtain rfl := List.mem_singleton.mp hx
    exact ⟨rfl, rfl⟩
  · rcases List.mem_cons.mp hx with rfl | hx
    · exact ⟨rfl, rfl⟩
    · obtain ⟨b, -, rfl⟩ := List.mem_map.mp hx
      exact ⟨rfl, rfl⟩

/-- Every call writes to the primary. -/
theorem MetaCall.primary_mem_writes (c : MetaCall) :
    ⟨c.store.replicator.primaryDisk, c.offset, c.frame.length⟩ ∈ c.writes := by
  unfold MetaCall.writes
  split
  · exact List.mem_singleton.mpr rfl
  · exact List.mem_cons_self

/-- `apply` writes by its commit only. -/
theorem apply_world (env : Env) (w : World) (s : MetaStore) (op : MetaOp) : (s.apply env w op).2.1 =
    (s.replicator.commit env w (MetaStore.opFrame env.ord op) (s.walBaseOffset + s.walCursor)).2 := by
  unfold MetaStore.apply
  dsimp only
  split
  · rename_i heq
    rw [heq]
  · rename_i heq
    rw [heq]
    split <;> rfl
  · rename_i heq
    rw [heq]

/-- **The log's frame condition**: `apply` changes no byte outside its writes. -/
theorem MetaCall.frame_bytes {c : MetaCall} {r : DiskRef} {i : Nat} (hi : ∀ x ∈ c.writes, ¬x.Covers r i) :
    ((c.store.apply c.env c.world c.op).2.1.disk r).bytes i = (c.world.disk r).bytes i := by
  have hprimary := hi _ c.primary_mem_writes
  rw [apply_world]
  unfold MetaReplicator.commit
  change ((match c.world.writeSync c.env c.store.replicator.primaryDisk c.offset c.frame with
    | (.error e, w) => _
    | (.ok (), w) => _ : Except CommitError Unit × World).2.disk r).bytes i = _
  unfold MetaCall.writes at hi
  generalize hout : c.world.writeSync c.env c.store.replicator.primaryDisk c.offset c.frame = out at hi ⊢
  obtain ⟨res, w₁⟩ := out
  have hfirst := World.writeSync_frame hout hprimary
  cases res with
  | error e => exact hfirst
  | ok u =>
      dsimp only at hi ⊢
      cases hback : c.store.replicator.backupDisk with
      | none => exact hfirst
      | some b =>
          rw [hback] at hi
          have hbackup := hi ⟨b, c.offset, c.frame.length⟩ (by simp)
          dsimp only
          generalize hout₂ : w₁.writeSync c.env b (c.store.walBaseOffset + c.store.walCursor)
            (MetaStore.opFrame c.env.ord c.op) = out₂
          obtain ⟨res₂, w₂⟩ := out₂
          have hsecond : (w₂.disk r).bytes i = (w₁.disk r).bytes i := World.writeSync_frame hout₂ hbackup
          cases res₂ with
          | error e => exact hsecond.trans hfirst
          | ok u => exact hsecond.trans hfirst

/-! ## File data -/

/-- The write of one chunk record, unless the record does not fit the rest of the region. -/
def recordWrite (record : Segment.Record) (handle : DiskHandle) : List Write :=
  if Segment.segmentSizeBytes - handle.cursor < (Segment.encode record).length then []
  else [⟨handle.disk, segmentBaseOffset + handle.cursor, (Segment.encode record).length⟩]

/-- The write of one extent, unless its address overflows. -/
def extentWrite (content : Bytes) (handle : DiskHandle) : List Write :=
  if 2 ^ 64 ≤ segmentBaseOffset + handle.cursor then []
  else [⟨handle.disk, segmentBaseOffset + handle.cursor, content.length⟩]

/-- The writes of the replica loop, up to the first disk that fails. -/
def replicaWrites (issued : DiskHandle → List Write) (writeOne : World → DiskHandle → Res PoolError Nat × World) :
    List DiskId → World × Pool → List Write
  | [],        _ => []
  | id :: ids, s =>
      match s.2.disks[id]? with
      | none        => []
      | some handle => issued handle ++
          match writeReplica writeOne id s with
          | (.ok _, s') => replicaWrites issued writeOne ids s'
          | (_, _)      => []

/-- The writes of `write_whole_file_extent` for a planned content. -/
def extentWrites (env : Env) (inode : InodeId) (s : World × Pool) : Res PoolError (RedundancyScheme × Bytes) → List Write
  | .ok (redundancy, content) =>
      if content = [] then []
      else
        match s.2.place env.ord redundancy (Placement.placementKey inode (UInt64.ofNat (2 ^ 64 - 1))) with
        | .ok ids => replicaWrites (extentWrite content) (storeExtent env content) ids s
        | _       => []
  | _ => []

/-- The writes of `append` for a planned record. -/
def appendWrites (env : Env) (inode : InodeId) (payload : Bytes) (s : World × Pool) :
    Res PoolError (UInt64 × List DiskId) → List Write
  | .ok (chunkSeq, ids) =>
      let record := Segment.Record.new inode chunkSeq payload
      replicaWrites (recordWrite record) (appendRecord env record) ids s
  | _ => []

/-- The writes of a call's data phase. -/
def dataWrites (env : Env) (s : World × Pool) : PoolOp → List Write
  | .append inode payload    => appendWrites env inode payload s (s.2.planAppend env.ord inode)
  | .completeConvert inode   => extentWrites env inode s (s.2.planCompleteConvert s.1 inode)
  | .write inode offset data => extentWrites env inode s (s.2.planWrite s.1 inode offset data)
  | _                        => []

/-- What holds of the writes for every disk holds of the loop's. -/
theorem forall_replicaWrites {issued : DiskHandle → List Write}
    {writeOne : World → DiskHandle → Res PoolError Nat × World} {P : Write → Prop}
    (hissued : ∀ handle, ∀ x ∈ issued handle, P x) {ids : List DiskId} {s : World × Pool} :
    ∀ x ∈ replicaWrites issued writeOne ids s, P x := by
  induction ids generalizing s with
  | nil => simp [replicaWrites]
  | cons id ids ih =>
      intro x hx
      unfold replicaWrites at hx
      split at hx
      · cases hx
      · rcases List.mem_append.mp hx with hx | hx
        · exact hissued _ x hx
        · split at hx
          · exact ih x hx
          · cases hx

theorem recordWrite_offset (record : Segment.Record) (handle : DiskHandle) :
    ∀ x ∈ recordWrite record handle, segmentBaseOffset ≤ x.offset := by
  unfold recordWrite
  split
  · simp
  · simp

theorem extentWrite_offset (content : Bytes) (handle : DiskHandle) :
    ∀ x ∈ extentWrite content handle, segmentBaseOffset ≤ x.offset := by
  unfold extentWrite
  split
  · simp
  · simp

theorem extentWrites_offset {env : Env} {inode : InodeId} {s : World × Pool}
    {plan : Res PoolError (RedundancyScheme × Bytes)} :
    ∀ x ∈ extentWrites env inode s plan, segmentBaseOffset ≤ x.offset := by
  intro x hx
  unfold extentWrites at hx
  split at hx
  · split at hx
    · cases hx
    · split at hx
      · exact forall_replicaWrites (extentWrite_offset _) x hx
      · cases hx
  · cases hx

theorem appendWrites_offset {env : Env} {inode : InodeId} {payload : Bytes} {s : World × Pool}
    {plan : Res PoolError (UInt64 × List DiskId)} :
    ∀ x ∈ appendWrites env inode payload s plan, segmentBaseOffset ≤ x.offset := by
  intro x hx
  unfold appendWrites at hx
  split at hx
  · exact forall_replicaWrites (recordWrite_offset _) x hx
  · cases hx

/-- **Every data write lands in the data region.** -/
theorem dataWrites_offset {env : Env} {s : World × Pool} {op : PoolOp} :
    ∀ x ∈ dataWrites env s op, segmentBaseOffset ≤ x.offset := by
  intro x hx
  cases op with
  | append inode payload => exact appendWrites_offset x hx
  | completeConvert inode => exact extentWrites_offset x hx
  | write inode offset data => exact extentWrites_offset x hx
  | createFile parent name redundancy uid gid unixMode now => cases hx
  | beginConvert inode => cases hx
  | setRedundancy inode scheme => cases hx
  | unlink parent name => cases hx
  | read inode offset len => cases hx

/-! ### And there are no others -/

/-- One replica's write is all that is stored for it. -/
def Issues (issued : DiskHandle → List Write) (writeOne : World → DiskHandle → Res PoolError Nat × World) : Prop :=
  ∀ w handle r i, (∀ x ∈ issued handle, ¬x.Covers r i) →
    ((writeOne w handle).2.disk r).bytes i = (w.disk r).bytes i

theorem issues_appendRecord (env : Env) (record : Segment.Record) :
    Issues (recordWrite record) (appendRecord env record) := by
  intro w handle r i hi
  rw [appendRecord_eq]
  unfold recordWrite at hi
  split
  · rfl
  · rename_i hroom
    rw [if_neg hroom] at hi
    have hwrite := hi _ (List.mem_singleton.mpr rfl)
    generalize hout : w.writeSync env handle.disk (segmentBaseOffset + handle.cursor) (Segment.encode record) = out
    obtain ⟨res, w'⟩ := out
    have hframe := World.writeSync_frame hout hwrite
    cases res with
    | error e => exact hframe
    | ok u => exact hframe

theorem issues_storeExtent (env : Env) (content : Bytes) : Issues (extentWrite content) (storeExtent env content) := by
  intro w handle r i hi
  unfold storeExtent
  unfold extentWrite at hi
  split
  · rfl
  · rename_i haddr
    rw [if_neg haddr] at hi
    have hwrite := hi _ (List.mem_singleton.mpr rfl)
    generalize hout : w.writeSync env handle.disk (segmentBaseOffset + handle.cursor) content = out
    obtain ⟨res, w'⟩ := out
    have hframe := World.writeSync_frame hout hwrite
    cases res with
    | error e => exact hframe
    | ok u =>
        dsimp only
        split
        · exact hframe
        · exact hframe

theorem replicas_frame {issued : DiskHandle → List Write} {writeOne : World → DiskHandle → Res PoolError Nat × World}
    (hone : Issues issued writeOne) {ids : List DiskId} {s : World × Pool} {r : DiskRef} {i : Nat}
    (hi : ∀ x ∈ replicaWrites issued writeOne ids s, ¬x.Covers r i) :
    ((writeReplicas writeOne ids s).2.1.disk r).bytes i = (s.1.disk r).bytes i := by
  induction ids generalizing s with
  | nil => rfl
  | cons id ids ih =>
      obtain ⟨w, p⟩ := s
      unfold replicaWrites at hi
      cases hid : p.disks[id]? with
      | none =>
          have hturn : writeReplica writeOne id (w, p) = (.err .unplaceable, w, p) := by
            simp only [writeReplica, hid]
          rw [show writeReplicas writeOne (id :: ids) (w, p) = _ from Action.bind_of_err hturn]
      | some handle =>
          simp only [hid] at hi
          generalize hout : writeReplica writeOne id (w, p) = out at hi
          obtain ⟨res, s'⟩ := out
          have hfirst : (s'.1.disk r).bytes i = (w.disk r).bytes i := by
            have hworld : s'.1 = (writeOne w handle).2 := by
              rw [← show (writeReplica writeOne id (w, p)).2.1 = s'.1 from congrArg (·.2.1) hout]
              simp only [writeReplica, hid]
              split
              · rename_i heq; rw [heq]
              · rename_i heq; rw [heq]
              · rename_i heq; rw [heq]
            rw [hworld]
            exact hone w handle r i fun x hx => hi x (List.mem_append_left _ hx)
          by_cases hok : ∃ written, res = .ok written
          · obtain ⟨written, rfl⟩ := hok
            rw [show writeReplicas writeOne (id :: ids) (w, p) = _ from Action.bind_of_ok hout, Action.state_returns]
            exact (ih fun x hx => hi x (List.mem_append_right _ hx)).trans hfirst
          · have hstate : (writeReplicas writeOne (id :: ids) (w, p)).2 = s' := by
              refine (Action.state_bind_of_fail fun written => ?_).trans (congrArg Prod.snd hout)
              rw [hout]
              exact fun heq => hok ⟨written, heq⟩
            rw [hstate]
            exact hfirst

/-- The data phase of `append`, as the replica loop its plan leads to. -/
theorem appendPhase_frame {env : Env} {inode : InodeId} {payload : Bytes} {s : World × Pool} {r : DiskRef} {i : Nat}
    (hi : ∀ x ∈ appendWrites env inode payload s (s.2.planAppend env.ord inode), ¬x.Covers r i) :
    ((prepareAppend env inode payload s).2.1.disk r).bytes i = (s.1.disk r).bytes i := by
  unfold appendWrites at hi
  split at hi
  · rename_i chunkSeq ids hplan
    have hread : (Action.reads (fun s => s.2.planAppend env.ord inode) : PoolM _) s = (.ok (chunkSeq, ids), s) :=
      Action.reads_eq_ok.mpr ⟨hplan, rfl⟩
    rw [show prepareAppend env inode payload s = _ from Action.bind_of_ok hread, Action.state_returns]
    exact replicas_frame (issues_appendRecord env _) hi
  · rename_i hplan
    rw [show (prepareAppend env inode payload s).2 = s from Action.state_bind_of_fail fun a heq => hplan _ _ heq]

theorem extentPhase_frame {env : Env} {inode : InodeId} {s : World × Pool} {r : DiskRef} {i : Nat}
    (plan : World → Pool → Res PoolError (RedundancyScheme × Bytes)) {mkOp : List Extent → MetaOp}
    (hi : ∀ x ∈ extentWrites env inode s (plan s.1 s.2), ¬x.Covers r i) :
    ((prepareExtents env inode plan mkOp s).2.1.disk r).bytes i = (s.1.disk r).bytes i := by
  unfold extentWrites at hi
  split at hi
  · rename_i redundancy content hplan
    have hread : (Action.reads (fun s => plan s.1 s.2) : PoolM _) s = (.ok (redundancy, content), s) :=
      Action.reads_eq_ok.mpr ⟨hplan, rfl⟩
    rw [show prepareExtents env inode plan mkOp s = _ from Action.bind_of_ok hread, Action.state_returns]
    unfold writeWholeFileExtent
    split at hi
    · rename_i hempty
      rw [if_pos hempty]
      rfl
    · rename_i hne
      rw [if_neg hne]
      split at hi
      · rename_i ids hplace
        have hread : (Action.reads (fun s => s.2.place env.ord redundancy
            (Placement.placementKey inode (UInt64.ofNat (2 ^ 64 - 1)))) : PoolM _) s = (.ok ids, s) :=
          Action.reads_eq_ok.mpr ⟨hplace, rfl⟩
        rw [Action.bind_of_ok hread, Action.state_returns]
        exact replicas_frame (issues_storeExtent env _) hi
      · rename_i hplace
        rw [Action.state_bind_of_fail fun ids heq => hplace _ heq]
        rfl
  · rename_i hplan
    rw [show (prepareExtents env inode plan mkOp s).2 = s from Action.state_bind_of_fail fun a heq => hplan _ _ heq]

/-- **The data phase's frame condition.** -/
theorem dataPhase_frame {env : Env} {op : PoolOp} {x : PoolM MetaOp} {s : World × Pool} {r : DiskRef} {i : Nat}
    (hop : dataPhase env op = some x) (hi : ∀ y ∈ dataWrites env s op, ¬y.Covers r i) :
    ((x s).2.1.disk r).bytes i = (s.1.disk r).bytes i := by
  cases dataPhase_cases hop with
  | append =>
      exact appendPhase_frame hi
  | @completeConvert inode =>
      exact extentPhase_frame (fun w p => p.planCompleteConvert w inode) hi
  | @write inode offset data =>
      exact extentPhase_frame (fun w p => p.planWrite w inode offset data) hi

/-- **The frame condition of a call**: a byte that none of its writes covers stays. -/
theorem step_frame {env : Env} {w w' : World} {p p' : Pool} {op : PoolOp} {res : Res PoolError PoolVal} {r : DiskRef}
    {i : Nat} (h : step env op (w, p) = (res, w', p')) (hres : res ≠ .panic)
    (hdata : ∀ x ∈ dataWrites env (w, p) op, ¬x.Covers r i)
    (hmeta : ∀ c ∈ p.metaCalls env w op, ∀ x ∈ c.writes, ¬x.Covers r i) :
    (w'.disk r).bytes i = (w.disk r).bytes i := by
  refine step_rule (I := fun w₁ _ => (w₁.disk r).bytes i = (w.disk r).bytes i) rfl ?_ ?_ ?_ h hres
  · intro x hop
    exact dataPhase_frame hop hdata
  · intro id s _
    rfl
  · intro mop w₁ p₁ q w₂ s₂ hhands hI happly _
    have hframe := MetaCall.frame_bytes (hmeta _ hhands.mem_metaCalls)
    rw [show (MetaStore.apply _ _ _ _).2.1 = w₂ from congrArg (·.2.1) happly] at hframe
    exact hframe.trans hI

/-! ## Runs -/

/-- What a process does with its disks: format them, open them, or call the pool it has. -/
inductive Deed where
  | format (env : Env) (n : Nat) (classes : List DiskClass) (now : UInt64)
  | openPool (n : Nat) (classes : List DiskClass)
  | call (env : Env) (op : PoolOp)

namespace Deed

/-- The disks and the pool after it, if there is one: a format or an open that fails leaves none, nor does a panic. -/
def exec : Deed → World × Option Pool → World × Option Pool
  | .format env n classes now, (w, _) => (formatWithClasses env w n classes now).2
  | .openPool n classes, (w, _) =>
      match openWithClasses w n classes with
      | .ok p => (w, some p)
      | _     => (w, none)
  | .call env op, (w, some p) =>
      match step env op (w, p) with
      | (.panic, w', _) => (w', none)
      | (_, w', p')     => (w', some p')
  | .call _ _, (w, none) => (w, none)

/-- The calls of `MetaStore::apply` it makes. -/
def metaCalls : Deed → World × Option Pool → List MetaCall
  | .format env n classes now, (w, _) => if n = 0 ∨ n ≠ classes.length then [] else formatCalls env w n now
  | .call env op, (w, some p)         => p.metaCalls env w op
  | _, _                              => []

/-- Its writes of file data. -/
def dataWrites : Deed → World × Option Pool → List Write
  | .call env op, (w, some p) => Pool.dataWrites env (w, p) op
  | _, _                      => []

end Deed

/-- Every call of `MetaStore::apply` in a run. -/
def callsOf : List Deed → World × Option Pool → List MetaCall
  | [],      _ => []
  | d :: ds, s => d.metaCalls s ++ callsOf ds (d.exec s)

/-- Every write of file data in a run. -/
def dataWritesOf : List Deed → World × Option Pool → List Write
  | [],      _ => []
  | d :: ds, s => d.dataWrites s ++ dataWritesOf ds (d.exec s)

/-- Every write to the log in a run. -/
def metaWritesOf (ds : List Deed) (s : World × Option Pool) : List Write := (callsOf ds s).flatMap MetaCall.writes

theorem callsOf_append (ds ds' : List Deed) (s : World × Option Pool) :
    callsOf (ds ++ ds') s = callsOf ds s ++ callsOf ds' (ds.foldl (fun s d => d.exec s) s) := by
  induction ds generalizing s with
  | nil => rfl
  | cons d ds ih =>
      rw [List.cons_append, callsOf, callsOf, ih, List.append_assoc]
      rfl

/-- A call that does not panic leaves the pool of its outcome. -/
theorem Deed.exec_call {env : Env} {w w' : World} {p p' : Pool} {op : PoolOp} {res : Res PoolError PoolVal}
    (h : step env op (w, p) = (res, w', p')) (hres : res ≠ .panic) :
    (Deed.call env op).exec (w, some p) = (w', some p') := by
  simp only [Deed.exec, h]

/-- **A run is a list of deeds**: from the disks it was formatted on, they leave the same disks and the same pool, and make
    the same calls of `MetaStore::apply`. -/
theorem RunWith.deeds {opens : Nat → Prop} {n : Nat} {w : World} {p : Pool} {events : List Event}
    (hrun : RunWith opens n w p events) : ∃ w₀ ds, ds.foldl (fun s d => d.exec s) (w₀, none) = (w, some p) ∧
      callsOf ds (w₀, none) = allMetaCalls events := by
  induction hrun with
  | @format w₀ w p classes now env h =>
      obtain ⟨hn, hlen, -⟩ := formatWithClasses_eq_ok h
      refine ⟨w₀, [.format env n classes now], ?_, ?_⟩
      · simp only [List.foldl_cons, List.foldl_nil, Deed.exec, h]
      · rw [callsOf, callsOf, List.append_nil, Deed.metaCalls, if_neg (by rw [hlen]; simpa using hn), allMetaCalls,
          List.flatMap_singleton, Event.metaCalls]
  | @call w p events res w' p' env op hrun h hres ih =>
      obtain ⟨w₀, ds, hexec, hcalls⟩ := ih
      refine ⟨w₀, ds ++ [.call env op], ?_, ?_⟩
      · rw [List.foldl_append, hexec, List.foldl_cons, List.foldl_nil]
        exact Deed.exec_call h hres
      · rw [callsOf_append, hexec, hcalls, allMetaCalls_snoc, callsOf, callsOf, List.append_nil]
        rfl
  | @reopen m w p events classes p' hrun h hm ih =>
      obtain ⟨w₀, ds, hexec, hcalls⟩ := ih
      refine ⟨w₀, ds ++ [.openPool m classes], ?_, ?_⟩
      · rw [List.foldl_append, hexec, List.foldl_cons, List.foldl_nil]
        simp only [Deed.exec, h]
      · rw [callsOf_append, hcalls, allMetaCalls_snoc, callsOf, callsOf, List.append_nil]
        rfl

/-- **The documented layout**: the superblock's reserve is never written, the log is written in its region, and file data
    in the data region. -/
structure RespectsLayout (ds : List Deed) (s : World × Option Pool) : Prop where
  reserve : ∀ x ∈ metaWritesOf ds s ++ dataWritesOf ds s, ∀ r i, x.Covers r i → superblockReserveBytes ≤ i
  log : ∀ x ∈ metaWritesOf ds s, walBaseOffset ≤ x.offset ∧ x.offset + x.len ≤ walBaseOffset + Wal.walCapacityBytes
  data : ∀ x ∈ dataWritesOf ds s, segmentBaseOffset ≤ x.offset

/-- The log of the pool at hand, if there is one, starts at offset zero. -/
def LogAtZero (s : World × Option Pool) : Prop := ∀ p, s.2 = some p → MetaWf p.metaStore

/-- A format that leaves a pool succeeded. -/
theorem format_of_some {env : Env} {w w' : World} {n : Nat} {classes : List DiskClass} {now : UInt64} {p : Pool}
    (h : (formatWithClasses env w n classes now).2 = (w', some p)) :
    formatWithClasses env w n classes now = (.ok (), w', some p) := by
  have hok : (formatWithClasses env w n classes now).1 = .ok () := by
    unfold formatWithClasses at h ⊢
    split
    · rename_i hn
      rw [if_pos hn] at h
      cases h
    · rename_i hn
      rw [if_neg hn] at h
      split
      · rename_i hlen
        rw [if_pos hlen] at h
        cases h
      · rename_i hlen
        rw [if_neg hlen] at h
        dsimp only at h ⊢
        split
        · rename_i hopen
          rw [hopen] at h
          cases h
        · rename_i hopen
          rw [hopen] at h
          cases h
        · rename_i hopen
          rw [hopen] at h
          dsimp only at h ⊢
          split
          · rfl
          · rename_i happly
            rw [happly] at h
            cases h
          · rename_i happly
            rw [happly] at h
            cases h
  exact Prod.ext hok h

theorem LogAtZero.exec {d : Deed} {s : World × Option Pool} (h : LogAtZero s) : LogAtZero (d.exec s) := by
  obtain ⟨w, po⟩ := s
  intro p hp
  cases d with
  | format env n classes now =>
      -- a format leaves a pool only if it succeeded
      have hformat := format_of_some (Prod.ext rfl hp : (formatWithClasses env w n classes now).2 = (_, some p))
      exact metaWf_format hformat
  | openPool n classes =>
      simp only [Deed.exec] at hp
      split at hp
      · rename_i p' hopen
        obtain rfl := Option.some.inj hp
        obtain ⟨-, -, s, hstore, rfl⟩ := openWithClasses_eq_ok hopen
        exact metaWf_open hstore
      · cases hp
  | call env op =>
      cases po with
      | none => cases hp
      | some p₀ =>
          simp only [Deed.exec] at hp
          generalize hstep : step env op (w, p₀) = out at hp
          obtain ⟨res, w', p'⟩ := out
          cases res with
          | ok v =>
              obtain rfl := Option.some.inj hp
              exact (h p₀ rfl).call hstep (by simp)
          | err e =>
              obtain rfl := Option.some.inj hp
              exact (h p₀ rfl).call hstep (by simp)
          | panic => cases hp

/-- The calls of one deed find the log at offset zero. -/
theorem LogAtZero.metaCalls {d : Deed} {s : World × Option Pool} (h : LogAtZero s) :
    ∀ c ∈ d.metaCalls s, c.offset = c.store.walCursor := by
  obtain ⟨w, po⟩ := s
  have hbase : ∀ c : MetaCall, MetaWf c.store → c.offset = c.store.walCursor := by
    intro c hwf
    unfold MetaCall.offset
    rw [hwf.1, Nat.zero_add]
  intro c hc
  refine hbase c ?_
  cases d with
  | format env n classes now =>
      simp only [Deed.metaCalls, formatCalls] at hc
      split at hc
      · cases hc
      · split at hc
        · rename_i hopen
          obtain rfl := List.mem_singleton.mp hc
          exact metaWf_open hopen
        · cases hc
  | openPool n classes => cases hc
  | call env op =>
      cases po with
      | none => cases hc
      | some p => exact metaCalls_wf (h p rfl) op c hc

/-- **Run lemma.** -/
theorem LogAtZero.calls {ds : List Deed} {s : World × Option Pool} (h : LogAtZero s) :
    ∀ c ∈ callsOf ds s, c.offset = c.store.walCursor := by
  induction ds generalizing s with
  | nil => simp [callsOf]
  | cons d ds ih =>
      intro c hc
      rcases List.mem_append.mp hc with hc | hc
      · exact h.metaCalls c hc
      · exact ih h.exec c hc

theorem dataWritesOf_offset {ds : List Deed} {s : World × Option Pool} :
    ∀ x ∈ dataWritesOf ds s, segmentBaseOffset ≤ x.offset := by
  induction ds generalizing s with
  | nil => simp [dataWritesOf]
  | cons d ds ih =>
      intro x hx
      rcases List.mem_append.mp hx with hx | hx
      · unfold Deed.dataWrites at hx
        split at hx
        · exact dataWrites_offset x hx
        · cases hx
      · exact ih x hx

/-- **The layout is respected exactly where the log has outgrown the reserve**: in a run from any disks whose frames fit
    the log's region, every operation handed to the log must find the log's cursor past the superblock's reserve. -/
theorem layout_respected_iff (ds : List Deed) (w : World) (hfits : ∀ c ∈ callsOf ds (w, none), c.Fits) :
    RespectsLayout ds (w, none) ↔ ∀ c ∈ callsOf ds (w, none), superblockReserveBytes ≤ c.store.walCursor := by
  have hzero : LogAtZero (w, none) := fun p hp => by cases hp
  have hoffset : ∀ c ∈ callsOf ds (w, none), c.offset = c.store.walCursor := hzero.calls
  constructor
  · intro hlayout c hc
    have hin := (hlayout.log _ (List.mem_flatMap.mpr ⟨c, hc, c.primary_mem_writes⟩)).1
    exact Nat.le_trans hin (Nat.le_of_eq (hoffset c hc))
  · intro hcursor
    have hlog : ∀ x ∈ metaWritesOf ds (w, none),
        walBaseOffset ≤ x.offset ∧ x.offset + x.len ≤ walBaseOffset + Wal.walCapacityBytes := by
      intro x hx
      obtain ⟨c, hc, hx⟩ := List.mem_flatMap.mp hx
      obtain ⟨hoff, hlen⟩ := c.mem_writes hx
      have hfit : c.store.walCursor + c.frame.length ≤ Wal.walCapacityBytes := hfits c hc
      have hcur : walBaseOffset ≤ c.store.walCursor := hcursor c hc
      rw [hoff, hlen, hoffset c hc]
      omega
    refine ⟨?_, hlog, dataWritesOf_offset⟩
    rintro x hx r i ⟨-, hle, -⟩
    rcases List.mem_append.mp hx with hx | hx
    · exact Nat.le_trans (hlog x hx).1 hle
    · have hbase : superblockReserveBytes ≤ segmentBaseOffset := by decide
      exact Nat.le_trans hbase (Nat.le_trans (dataWritesOf_offset x hx) hle)

/-- **No format respects the layout**: the root directory's entry is the first of a log that starts in the reserve. -/
theorem format_breaks_layout (env : Env) (w : World) (classes : List DiskClass) (now : UInt64) (ds : List Deed)
    (s : Option Pool) (hn : classes.length ≠ 0) :
    ¬RespectsLayout (.format env classes.length classes now :: ds) (w, s) := by
  intro hlayout
  have hcall : ⟨env, createDisks w classes.length, freshStore classes.length,
      .createInode (rootRecord classes.length now)⟩ ∈
        callsOf (.format env classes.length classes now :: ds) (w, s) := by
    refine List.mem_append_left _ ?_
    simp only [Deed.metaCalls, formatCalls]
    rw [if_neg (by simp [hn]), openStore_createDisks w hn]
    exact List.mem_singleton.mpr rfl
  have hin := (hlayout.log _ (List.mem_flatMap.mpr ⟨_, hcall, MetaCall.primary_mem_writes _⟩)).1
  exact absurd (show walBaseOffset ≤ 0 from hin) (by decide)

/-! ## A log longer than the reserve -/

/-- Disks whose log has one entry. -/
def loggedOnce (op : MetaOp) : World :=
  ⟨fun _ => (FileDisk.create diskFileCapacityBytes).writeAt 0 (MetaStore.opFrame MetaStore.listOrder op), 0⟩

/-- The pool on one of them. -/
def poolOnce (op : MetaOp) (v : View) : Pool :=
  ⟨poolMapOf [.hdd], handlesOf 1 (fun i => (Segment.scan ((loggedOnce op).disk i) segmentBaseOffset).resumeAt),
    ⟨⟨groupOf 1, 0, backupOf 1⟩, 0, (MetaStore.opFrame MetaStore.listOrder op).length, v⟩⟩

theorem open_loggedOnce {op : MetaOp} {v : View} (hfits : op.Fits)
    (hcap : (MetaStore.opFrame MetaStore.listOrder op).length ≤ Wal.walCapacityBytes)
    (hv : View.empty.applyLocally op = .ok v) : openWithClasses (loggedOnce op) 1 [.hdd] = .ok (poolOnce op v) := by
  have hblank : Wal.Carries (FileDisk.create diskFileCapacityBytes) [] 0 := Wal.carries_nil fun _ => rfl
  have hcarries : Wal.Carries ((loggedOnce op).disk 0) [Codec.encodeOp MetaStore.listOrder op]
      (0 + (MetaStore.opFrame MetaStore.listOrder op).length) := hblank.snoc (by rw [Nat.zero_add]; exact hcap)
  have hreplay : View.empty.replay [Codec.encodeOp MetaStore.listOrder op] = .ok v := by
    rw [View.replay, List.foldlM_cons, View.replayEntry, Codec.decodeOp_encodeOp _ hfits]
    dsimp only
    rw [hv]
    rfl
  have hopen := MetaStore.openStore_of_carries (groupOf 1) (backupOf 1) hcarries hreplay
  rw [Nat.zero_add] at hopen
  exact openWithClasses_of_openStore (show [DiskClass.hdd].length ≠ 0 by decide) hopen

/-- A run: open the pool, unlink a name. -/
def unlinkDeeds : List Deed := [.openPool 1 [.hdd], .call (Env.healthy MetaStore.listOrder) (.unlink rootInode "a")]

theorem callsOf_unlinkDeeds {op : MetaOp} {v : View}
    (hopen : openWithClasses (loggedOnce op) 1 [.hdd] = .ok (poolOnce op v)) :
    callsOf unlinkDeeds (loggedOnce op, none) =
      [⟨Env.healthy MetaStore.listOrder, loggedOnce op, (poolOnce op v).metaStore, .unlink rootInode "a"⟩] := by
  unfold unlinkDeeds
  simp only [callsOf, Deed.metaCalls, Deed.exec, hopen]
  rfl

/-- A record with enough slots to fill the reserve by itself. -/
def wideRecord : InodeRecord :=
  { MetaStore.emptyFile 2 with redundancy := .replicated (List.replicate superblockReserveBytes (.anyOfClass none)) }

/-- The theorem at a log that has outgrown the reserve: the layout is respected. -/
theorem layout_respected_wideLog : RespectsLayout unlinkDeeds (loggedOnce (.createInode wideRecord), none) := by
  have hmin : superblockReserveBytes ≤ (MetaStore.opFrame MetaStore.listOrder (.createInode wideRecord)).length := by
    decide +kernel
  have hmax : (MetaStore.opFrame MetaStore.listOrder (.createInode wideRecord)).length ≤ 2 ^ 20 := by decide +kernel
  have hname : (MetaStore.opFrame MetaStore.listOrder (.unlink rootInode "a")).length ≤ 2 ^ 20 := by decide +kernel
  have hsmall : 2 ^ 20 + 2 ^ 20 ≤ Wal.walCapacityBytes := by decide
  have hfits : (MetaOp.createInode wideRecord).Fits :=
    ⟨show (List.replicate superblockReserveBytes _).length < 2 ^ 32 by rw [List.length_replicate]; decide, by decide⟩
  have hv : ∃ v, View.empty.applyLocally (.createInode wideRecord) = .ok v := ⟨_, rfl⟩
  generalize MetaOp.createInode wideRecord = op at hmin hmax hfits hv ⊢
  obtain ⟨v, hv⟩ := hv
  have hcalls := callsOf_unlinkDeeds (open_loggedOnce hfits (by omega) hv)
  refine (layout_respected_iff unlinkDeeds (loggedOnce op) ?_).mpr ?_
  · rw [hcalls]
    refine List.forall_mem_singleton.mpr ?_
    show (MetaStore.opFrame MetaStore.listOrder op).length +
      (MetaStore.opFrame MetaStore.listOrder (.unlink rootInode "a")).length ≤ _
    omega
  · rw [hcalls]
    exact List.forall_mem_singleton.mpr hmin

/-- Formatting one blank disk: the layout is broken, and the first bytes of the reserve hold the log's first frame. -/
theorem format_writes_reserve :
    ¬RespectsLayout [.format (Env.healthy MetaStore.listOrder) 1 [.hdd] 0] (World.blank 0, none) ∧
    (∀ c ∈ callsOf [.format (Env.healthy MetaStore.listOrder) 1 [.hdd] 0] (World.blank 0, none), c.Fits) ∧
    (((Deed.format (Env.healthy MetaStore.listOrder) 1 [.hdd] 0).exec (World.blank 0, none)).1.disk 0).bytes 0 ≠ 0 := by
  refine ⟨format_breaks_layout _ _ [.hdd] 0 [] none (by decide), by decide +kernel, by decide +kernel⟩

end Pool

end Tartine
