import Tartine.Meta.WholeFile

/-!
# `Meta.Headroom` — calls that do not panic

The pool's arithmetic panics where it leaves its type: at a cursor, the end of a write, a file's size, an inode number or
the group's epoch. The log keeps them all away from there. Every call that moves one of them logs something, so a pool
whose log is within its region has headroom left (`Headroom`), and the next call finds what it needs.

* `Headroom.step` — every call that returns keeps the headroom, on disks that do not fail;
* `step_ne_panic` — and none panics in a pool that has it, whatever the disks do.
-/

namespace Tartine

open Basis Codec

/-! ## Metadata operations that panic nowhere -/

/-- The operation's own numbers can be computed with. -/
def MetaOp.InRange : MetaOp → Prop
  | .createInode rec    => rec.inode.toNat + 1 < 2 ^ 64
  | .updateExtents _ xs => ∀ x ∈ xs, x.stop < 2 ^ 64
  | _                   => True

/-- No write reaches `2^32`. -/
def PoolOp.InRange : PoolOp → Prop
  | .write _ offset data => offset.toNat + data.length < 2 ^ 32
  | _                    => True

theorem stepMode_ne_panic_begin {msg : String} (mode : InodeMode) : stepMode Kcore.tartineBeginConvert msg mode ≠ .panic := by
  cases mode with
  | appendOnly => simp [stepMode, modeToU32, u32ToMode, Kcore.tartineBeginConvert, Kcore.modeAppendOnly, Kcore.modeConverting]
  | converting =>
      simp [stepMode, modeToU32, Kcore.tartineBeginConvert, Kcore.modeAppendOnly, Kcore.modeConverting, Kcore.modeWritable,
        Kcore.errAlreadyConverting]
  | writable =>
      simp [stepMode, modeToU32, Kcore.tartineBeginConvert, Kcore.modeAppendOnly, Kcore.modeWritable, Kcore.errAlreadyWritable]

theorem stepMode_ne_panic_complete {msg : String} (mode : InodeMode) :
    stepMode Kcore.tartineCompleteConvert msg mode ≠ .panic := by
  cases mode with
  | appendOnly =>
      simp [stepMode, modeToU32, Kcore.tartineCompleteConvert, Kcore.modeAppendOnly, Kcore.modeConverting, Kcore.errBadMode]
  | converting =>
      simp [stepMode, modeToU32, u32ToMode, Kcore.tartineCompleteConvert, Kcore.modeAppendOnly, Kcore.modeConverting,
        Kcore.modeWritable]
  | writable =>
      simp [stepMode, modeToU32, Kcore.tartineCompleteConvert, Kcore.modeConverting, Kcore.modeWritable, Kcore.errBadMode]

namespace View

variable {v : View} {i : InodeId} {P : InodeRecord → Prop}

theorem Each.readInode_ne_panic (hv : v.Each P) : v.readInode i ≠ .panic := by
  unfold readInode
  cases hentry : v.inodes[i]? with
  | none => simp
  | some bytes =>
      obtain ⟨rec, hhas, -⟩ := hv i bytes hentry
      have hread := hhas.readInode_eq
      unfold readInode at hread
      rw [hentry] at hread
      simp [hread]

/-- **The tables panic at no operation that is in range.** -/
theorem Each.applyLocally_ne_panic {op : MetaOp} (hv : v.Each fun rec => rec.size.toNat < 2 ^ 63) (hop : op.InRange) :
    v.applyLocally op ≠ .panic := by
  cases op with
  | createInode rec =>
      have hnext : rec.inode.toNat + (1 : UInt64).toNat < 2 ^ 64 := hop
      simp [View.applyLocally, Res.checkedAdd_of_lt hnext]
  | link parent name child => simp [View.applyLocally]
  | unlink parent name => simp [View.applyLocally]
  | appendChunk inode chunk =>
      refine Res.bind_ne_panic hv.readInode_ne_panic fun rec hrec => ?_
      have hsize := (hv.of_readInode hrec).2
      have hlen : chunk.len.toUInt64.toNat < 2 ^ 32 := by simpa using chunk.len.toNat_lt
      cases rec.data with
      | chunkLog chunks => simp [Res.checkedAdd_of_lt (show rec.size.toNat + chunk.len.toUInt64.toNat < 2 ^ 64 by omega)]
      | extents xs => simp
  | beginConvert inode =>
      refine Res.bind_ne_panic hv.readInode_ne_panic fun rec _ => ?_
      exact Res.bind_ne_panic (stepMode_ne_panic_begin _) fun mode _ => by simp
  | completeConvert inode xs =>
      refine Res.bind_ne_panic hv.readInode_ne_panic fun rec _ => ?_
      exact Res.bind_ne_panic (stepMode_ne_panic_complete _) fun mode _ => by simp
  | setRedundancyScheme inode scheme => exact Res.bind_ne_panic hv.readInode_ne_panic fun rec _ => by simp
  | updateExtents inode xs =>
      refine Res.bind_ne_panic hv.readInode_ne_panic fun rec _ => ?_
      by_cases hmode : rec.mode ≠ .writable
      · simp [hmode]
      · rw [if_neg hmode]
        refine Res.bind_ne_panic (Res.mapM_ne_panic fun x hx => ?_) fun ends _ => by simp
        have hstop : x.fileOffset.toNat + x.len.toUInt64.toNat < 2 ^ 64 := by simpa [Extent.stop] using hop x hx
        simp [Res.checkedAdd_of_lt hstop]
  | poolMapChange pm => simp [View.applyLocally]
  | metaGroupChange g => simp [View.applyLocally]

end View

namespace Pool

variable {env : Env} {ord : IterOrder} {w w' w₁ : World} {p p' p₁ : Pool} {m : Files} {op : PoolOp} {mop : MetaOp} {limit : Nat}

/-! ## Cursors -/

/-- No disk's cursor is past `limit`. -/
def CursorsLe (limit : Nat) (p : Pool) : Prop :=
  ∀ (id : DiskId) (handle : DiskHandle), p.disks[id]? = some handle → handle.cursor ≤ limit

theorem CursorsLe.mono {limit' : Nat} (h : CursorsLe limit p) (hle : limit ≤ limit') : CursorsLe limit' p :=
  fun id handle hid => Nat.le_trans (h id handle hid) hle

theorem CursorsLe.moveCursor {id : DiskId} {handle : DiskHandle} {cursor : Nat} (h : CursorsLe limit p)
    (hle : cursor ≤ limit) : CursorsLe limit (p.moveCursor id handle cursor) := by
  intro id' handle' hid'
  rw [moveCursor_disks] at hid'
  split at hid'
  · obtain rfl := Option.some.inj hid'
    exact hle
  · exact h id' handle' hid'

/-- What a turn of the replica loop adds to a cursor, once it is past `base`. -/
def Advances (base len : Nat) (writeOne : World → DiskHandle → Res PoolError Nat × World) : Prop :=
  ∀ w handle c w', writeOne w handle = (.ok c, w') → c ≤ max base (handle.cursor + len)

theorem advances_appendRecord (record : Segment.Record) : Advances Segment.segmentSizeBytes 0 (appendRecord env record) := by
  intro w handle c w' h
  rw [appendRecord_eq] at h
  split at h
  · cases (Prod.mk.inj h).1
  · rename_i hroom
    split at h
    · cases (Prod.mk.inj h).1
    · obtain rfl := Res.ok.inj (Prod.mk.inj h).1
      rw [Segment.length_encode] at hroom ⊢
      unfold Segment.headerLen at hroom ⊢
      omega

theorem advances_storeExtent (content : Bytes) : Advances 0 content.length (storeExtent env content) := by
  intro w handle c w' h
  unfold storeExtent at h
  split at h
  · cases (Prod.mk.inj h).1
  · split at h
    · cases (Prod.mk.inj h).1
    · split at h
      · cases (Prod.mk.inj h).1
      · obtain rfl := Res.ok.inj (Prod.mk.inj h).1
        exact Nat.le_max_right _ _

section Loop

variable {base len : Nat} {writeOne : World → DiskHandle → Res PoolError Nat × World}

theorem CursorsLe.writeReplica (h : CursorsLe limit p) (hw : Advances base len writeOne) (hbase : base ≤ limit) (w : World)
    (id : DiskId) : CursorsLe (limit + len) (Pool.writeReplica writeOne id (w, p)).2.2 := by
  unfold Pool.writeReplica
  dsimp only
  cases hid : p.disks[id]? with
  | none => exact h.mono (Nat.le_add_right _ _)
  | some handle =>
      dsimp only
      rcases hout : writeOne w handle with ⟨res, w'⟩
      cases res with
      | ok c =>
          have hc := hw w handle c w' hout
          have hle := h id handle hid
          exact (h.mono (Nat.le_add_right _ _)).moveCursor (by omega)
      | err e => exact h.mono (Nat.le_add_right _ _)
      | panic => exact h.mono (Nat.le_add_right _ _)

/-- The replica loop, however it ends. -/
theorem CursorsLe.writeReplicas {ids : List DiskId} (h : CursorsLe limit p) (hw : Advances base len writeOne)
    (hbase : base ≤ limit) : CursorsLe (limit + ids.length * len) (Pool.writeReplicas writeOne ids (w, p)).2.2 := by
  induction ids generalizing w p limit with
  | nil => exact h.mono (Nat.le_add_right _ _)
  | cons id ids ih =>
      have hturn := h.writeReplica hw hbase w id
      have hsum : limit + (id :: ids).length * len = limit + len + ids.length * len := by
        rw [List.length_cons]
        ring
      rw [hsum]
      refine Action.bind_ends (Q := fun a : World × Pool => CursorsLe _ a.2) (hturn.mono (Nat.le_add_right _ _)) fun written a hfirst => ?_
      rw [hfirst] at hturn
      have hloop := ih (w := a.1) hturn (Nat.le_trans hbase (Nat.le_add_right _ _))
      exact Action.bind_ends (Q := fun a : World × Pool => CursorsLe _ a.2) hloop fun rest b hrest => by rwa [hrest] at hloop

end Loop

/-- At most sixteen disks are chosen. -/
theorem length_place_le {scheme : RedundancyScheme} {key : UInt64} {ids : List DiskId} (h : p.place ord scheme key = .ok ids) :
    ids.length ≤ 16 := by
  obtain ⟨slots, -, hlen⟩ := length_place h
  exact hlen ▸ Nat.min_le_right _ _

/-- A data phase that appends moves no cursor past the segment's end. -/
theorem CursorsLe.prepareAppend {inode : InodeId} {payload : Bytes} (h : CursorsLe limit p)
    (hbase : Segment.segmentSizeBytes ≤ limit) (w : World) : CursorsLe limit (Pool.prepareAppend env inode payload (w, p)).2.2 := by
  have hkeeps : Action.Keeps (fun a b : World × Pool => CursorsLe limit a.2 → CursorsLe limit b.2)
      (Pool.prepareAppend env inode payload) :=
    keeps_appendPhase (fun _ h => h) (fun _ _ _ h h' hc => h' (h hc)) fun chunkSeq id a hc =>
      CursorsLe.writeReplica (p := a.2) hc (advances_appendRecord _) hbase a.1 id
  exact hkeeps (w, p) h

/-- One that rewrites moves at most sixteen, or one of them sixteen times, by what it stores. -/
theorem CursorsLe.prepareExtents {inode : InodeId} {plan : World → Pool → Res PoolError (RedundancyScheme × Bytes)}
    {mkOp : List Extent → MetaOp} (h : CursorsLe limit p)
    (hplan : ∀ redundancy content, plan w p = .ok (redundancy, content) → content.length < 2 ^ 32) :
    CursorsLe (limit + 2 ^ 36) (Pool.prepareExtents env inode plan mkOp (w, p)).2.2 := by
  have hsame : CursorsLe (limit + 2 ^ 36) p := h.mono (Nat.le_add_right _ _)
  refine Action.bind_ends (Q := fun a : World × Pool => CursorsLe _ a.2) hsame fun planned a hreads => ?_
  obtain ⟨hplanned, rfl⟩ := Action.reads_eq_ok.mp hreads
  obtain ⟨redundancy, content⟩ := planned
  have hstored : CursorsLe (limit + 2 ^ 36) (writeWholeFileExtent env inode redundancy 0 content (w, p)).2.2 := by
    unfold writeWholeFileExtent
    split
    · exact hsame
    · refine Action.bind_ends (Q := fun a : World × Pool => CursorsLe _ a.2) hsame fun ids a hreads => ?_
      obtain ⟨hplace, rfl⟩ := Action.reads_eq_ok.mp hreads
      have hloop : CursorsLe _ (Pool.writeReplicas (storeExtent env content) ids (w, p)).2.2 :=
        h.writeReplicas (advances_storeExtent content) (Nat.zero_le _)
      have hle : ids.length * content.length ≤ 16 * 2 ^ 32 :=
        Nat.mul_le_mul (length_place_le hplace) (Nat.le_of_lt (hplan redundancy content hplanned))
      have hloop := hloop.mono (Nat.add_le_add_left hle limit)
      exact Action.bind_ends (Q := fun a : World × Pool => CursorsLe _ a.2) hloop fun replicas b hreplicas => by
        rwa [hreplicas] at hloop
  exact Action.bind_ends (Q := fun a : World × Pool => CursorsLe _ a.2) hstored fun extents b hextents => by
    rwa [hextents] at hstored

/-! ## What a call moves -/

/-- The content a conversion stores is the file's. -/
theorem Sound.length_planCompleteConvert {inode : InodeId} {redundancy : RedundancyScheme} {content : Bytes}
    (hs : Sound w p m) (hsmall : m.Small) (h : p.planCompleteConvert w inode = .ok (redundancy, content)) :
    content.length < 2 ^ 32 := by
  obtain ⟨rec, hfind, -, -, hread⟩ := planCompleteConvert_eq_ok h
  exact hsmall inode content (hs.readFullContent hfind hread).1

/-- The content a write stores ends where the file or the write does. -/
theorem Sound.length_planWrite {inode : InodeId} {offset : UInt64} {data content : Bytes} {redundancy : RedundancyScheme}
    (hs : Sound w p m) (hsmall : m.Small) (hrange : offset.toNat + data.length < 2 ^ 32)
    (h : p.planWrite w inode offset data = .ok (redundancy, content)) : content.length < 2 ^ 32 := by
  obtain ⟨rec, old, hfind, -, hread, rfl⟩ := planWrite_eq_overwrite h
  have hold := hsmall inode old (hs.readFullContent hfind hread).1
  rw [length_overwrite]
  exact Nat.max_lt.mpr ⟨hold, hrange⟩

/-- A data phase moves each cursor by less than `2^36`. -/
theorem CursorsLe.phase {x : PoolM MetaOp} (h : CursorsLe limit p) (hs : Sound w p m) (hsmall : m.Small)
    (hrange : op.InRange) (hbase : Segment.segmentSizeBytes ≤ limit) (hop : dataPhase env op = some x) :
    CursorsLe (limit + 2 ^ 36) (x (w, p)).2.2 := by
  cases dataPhase_cases hop with
  | append => exact (h.prepareAppend hbase w).mono (Nat.le_add_right _ _)
  | completeConvert =>
      exact h.prepareExtents fun redundancy content hplan => hs.length_planCompleteConvert hsmall hplan
  | write =>
      exact h.prepareExtents fun redundancy content hplan => hs.length_planWrite hsmall hrange hplan

/-- One that fails, on disks that do not, moves none past the segment's end. -/
theorem CursorsLe.phase_err {x : PoolM MetaOp} {e : PoolError} (h : CursorsLe limit p) (hmem : Membered p)
    (hbase : Segment.segmentSizeBytes ≤ limit) (hop : dataPhase (Env.healthy ord) op = some x)
    (hx : x (w, p) = (.err e, w', p')) : CursorsLe limit p' := by
  cases dataPhase_cases hop with
  | @append inode payload =>
      have hend : CursorsLe limit (Pool.prepareAppend (Env.healthy ord) inode payload (w, p)).2.2 := h.prepareAppend hbase w
      rwa [hx] at hend
  | completeConvert =>
      obtain ⟨hsame, -⟩ := prepareExtents_eq_err rfl hmem hx
      obtain ⟨-, rfl⟩ := Prod.mk.inj hsame
      exact h
  | write =>
      obtain ⟨hsame, -⟩ := prepareExtents_eq_err rfl hmem hx
      obtain ⟨-, rfl⟩ := Prod.mk.inj hsame
      exact h

/-- The headroom of a pool: a byte of log stands for at most sixteen rewrites of less than `2^32` bytes, and for at most
    one inode number; the disks that are chosen are there; and a backup can be fenced. -/
structure Headroom (p : Pool) : Prop where
  cursors : CursorsLe (Segment.segmentSizeBytes + 2 ^ 36 * p.metaStore.walCursor) p
  next : p.metaStore.view.nextInode.toNat ≤ 2 + p.metaStore.walCursor
  membered : Membered p
  ready : FenceReady p.metaStore

/-- Where a call's last metadata operation finds the pool: at most one step ahead of the log. -/
structure Ahead (p p₁ : Pool) (mop : MetaOp) : Prop where
  cursors : CursorsLe (Segment.segmentSizeBytes + 2 ^ 36 * (p.metaStore.walCursor + 1)) p₁
  next : (View.nextAfter p₁.metaStore.view.nextInode mop).toNat ≤ 3 + p.metaStore.walCursor
  here : p₁.metaStore.view.nextInode.toNat ≤ 3 + p.metaStore.walCursor
  log : p.metaStore.walCursor ≤ p₁.metaStore.walCursor

theorem Headroom.base_le (p : Pool) :
    Segment.segmentSizeBytes ≤ Segment.segmentSizeBytes + 2 ^ 36 * p.metaStore.walCursor := Nat.le_add_right _ _

/-- An operation without a number of its own leaves the counter. -/
theorem nextAfter_of_ne (n : InodeId) (hmop : ∀ rec, mop ≠ .createInode rec) : View.nextAfter n mop = n := by
  cases mop with
  | createInode rec => exact absurd rfl (hmop rec)
  | _ => rfl

/-- What an allocation leaves. -/
theorem allocInode_counts {s s' : MetaStore} {id : InodeId} (h : s.allocInode = .ok (id, s')) :
    id = s.view.nextInode ∧ s'.view.nextInode.toNat = s.view.nextInode.toNat + 1 ∧ s'.walCursor = s.walCursor ∧
      s'.replicator = s.replicator := by
  obtain ⟨next, hadd, hs⟩ := Res.bind_eq_ok.mp h
  obtain ⟨rfl, rfl⟩ := Prod.mk.inj (Res.ok.inj hs)
  exact ⟨rfl, Res.checkedAdd_eq_ok.mp hadd, rfl, rfl⟩

/-- Creating the inode just allocated leaves the counter where the allocation did. -/
theorem nextAfter_created {s s' : MetaStore} {id : InodeId} {rec : InodeRecord} (h : s.allocInode = .ok (id, s'))
    (hrec : rec.inode = id) : (View.nextAfter s'.view.nextInode (.createInode rec)).toNat = s.view.nextInode.toNat + 1 := by
  obtain ⟨rfl, hcount, -, -⟩ := allocInode_counts h
  have hlt := s'.view.nextInode.toNat_lt
  have hone : (s.view.nextInode + 1).toNat = s.view.nextInode.toNat + 1 := by
    rw [UInt64.toNat_add, Nat.mod_eq_of_lt]
    · simp
    · simpa using hcount ▸ hlt
  show (max _ (rec.inode + 1)).toNat = _
  rw [UInt64.toNat_max, hrec, hone, hcount, Nat.max_self]

theorem Headroom.ahead (hh : Headroom p) (hs : Sound w p m) (hsmall : m.Small) (hrange : op.InRange)
    (h : Hands env w p op mop w₁ p₁) : Ahead p p₁ mop := by
  have hcursors : CursorsLe (Segment.segmentSizeBytes + 2 ^ 36 * (p.metaStore.walCursor + 1)) p :=
    hh.cursors.mono (by omega)
  have hnext := hh.next
  cases h with
  | @phase _ x _ w₁ p₁ hop hx =>
      have hphase := hh.cursors.phase hs hsmall hrange (Headroom.base_le p) hop
      have hstore := metaStore_of_dataPhase hop hx
      rw [hx] at hphase
      have hmop : ∀ rec, mop ≠ .createInode rec := by
        rcases dataPhase_eq_ok hop hx with ⟨_, _, _, -, rfl⟩ | ⟨_, _, -, rfl⟩ | ⟨_, _, _, _, -, rfl⟩
        · simp
        · simp
        · simp
      refine ⟨hphase.mono (by omega), ?_, ?_, ?_⟩
      · rw [nextAfter_of_ne _ hmop, hstore]
        omega
      · rw [hstore]
        omega
      · rw [hstore]
  | beginConvert => exact ⟨hcursors, by simp only [View.nextAfter]; omega, by omega, Nat.le_refl _⟩
  | setRedundancy => exact ⟨hcursors, by simp only [View.nextAfter]; omega, by omega, Nat.le_refl _⟩
  | unlink => exact ⟨hcursors, by simp only [View.nextAfter]; omega, by omega, Nat.le_refl _⟩
  | @create parent name redundancy uid gid unixMode now id s halloc =>
      obtain ⟨hid, hcount, hlog, -⟩ := allocInode_counts halloc
      refine ⟨hcursors, ?_, Nat.le_trans (Nat.le_of_eq hcount) (by omega), Nat.le_of_eq hlog.symm⟩
      exact Nat.le_trans (Nat.le_of_eq (nextAfter_created halloc rfl)) (by omega)
  | @link parent name redundancy uid gid unixMode now id s w₂ s₂ halloc hcreate =>
      obtain ⟨hid, hcount, hlog, hgroup⟩ := allocInode_counts halloc
      obtain ⟨hlogged, hview⟩ := MetaStore.apply_eq_ok (hgroup ▸ hs.wf.2) hcreate
      have hcreated : s₂.view.nextInode.toNat ≤ 3 + p.metaStore.walCursor := by
        rw [View.applyLocally_nextInode hview, nextAfter_created halloc rfl]
        omega
      refine ⟨hcursors, hcreated, hcreated, ?_⟩
      show p.metaStore.walCursor ≤ s₂.walCursor
      rw [hlogged.cursor_eq, hlog]
      exact Nat.le_add_right _ _

theorem Headroom.members (hh : Headroom p) {res : Res PoolError PoolVal} (hwf : MetaWf p.metaStore)
    (h : Pool.step env op (w, p) = (res, w', p')) (hres : res ≠ .panic) : Membered p' ∧ FenceReady p'.metaStore := by
  have hkept : MetaWf p'.metaStore ∧ Membered p' ∧ FenceReady p'.metaStore := by
    refine step_rule (I := fun _ q => MetaWf q.metaStore ∧ Membered q ∧ FenceReady q.metaStore)
      ⟨hwf, hh.membered, hh.ready⟩ ?_ ?_ ?_ h hres
    · intro x hop
      rw [show (x (w, p)).2.2.metaStore = p.metaStore from sameStore_dataPhase hop (w, p)]
      exact ⟨hwf, hh.membered.phase hop, hh.ready⟩
    · intro id s halloc
      have hgroup := (allocInode_counts halloc).2.2.2
      refine ⟨hwf.alloc halloc, hh.membered, ?_⟩
      unfold FenceReady MetaStore.group
      rw [hgroup]
      exact hh.ready
    · rintro mop w₁ p₁ q w₂ s₂ - ⟨hwf₁, hmem, hready⟩ happly -
      exact ⟨hwf₁.apply happly, hmem, hready.apply hwf₁.2 happly⟩
  exact hkept.2

/-- **Step lemma.** On disks that do not fail, every call keeps the headroom. -/
theorem Headroom.step {res : Res PoolError PoolVal} (hh : Headroom p) (hs : Sound w p m) (hsmall : m.Small)
    (hrange : op.InRange) (h : Pool.step (Env.healthy ord) op (w, p) = (res, w', p')) (hres : res ≠ .panic) :
    Headroom p' := by
  obtain ⟨hmem', hready'⟩ := hh.members hs.wf h hres
  rcases step_cases h hres with ⟨-, -, rfl⟩ | ⟨x, e, hop, hx, -⟩ | ⟨mop, w₁, p₁, q, s', hhands, happly, rfl, hcloses⟩
  · exact hh
  · have hstore := metaStore_of_dataPhase hop hx
    have hcursors := hh.cursors.phase_err hh.membered (Headroom.base_le p) hop hx
    exact ⟨by rwa [hstore], by rw [hstore]; exact hh.next, hmem', hready'⟩
  · obtain ⟨hcursors, hafter, hhere, hlog⟩ := hh.ahead hs hsmall hrange hhands
    have hwf := hhands.wf hs.wf
    have hq : q ≠ .panic := by
      rintro rfl
      cases hcloses
    have hlogged := MetaStore.logged_of_healthy hwf.2 happly hq
    have hpos := MetaStore.opFrame_pos ord mop
    have hcursor : p.metaStore.walCursor + 1 ≤ s'.walCursor := by
      rw [hlogged.cursor_eq]
      omega
    have hbelow : CursorsLe (Segment.segmentSizeBytes + 2 ^ 36 * s'.walCursor) p₁ := hcursors.mono (by omega)
    refine ⟨hbelow, ?_, hmem', hready'⟩
    have hnext : s'.view.nextInode.toNat ≤ 3 + p.metaStore.walCursor := by
      rcases MetaStore.apply_primary hwf.2 happly hq with ⟨-, ⟨u, hu, -, rfl⟩ | ⟨e, -, -, hview⟩⟩ | ⟨-, rfl, -⟩
      · rw [View.applyLocally_nextInode hu]
        exact hafter
      · rw [hview]
        exact hhere
      · exact hhere
    show s'.view.nextInode.toNat ≤ 2 + s'.walCursor
    omega

/-- A new pool has headroom. -/
theorem headroom_format {w₀ : World} {n : Nat} {classes : List DiskClass} {now : UInt64}
    (h : formatWithClasses env w₀ n classes now = (.ok (), w, some p)) : Headroom p := by
  obtain ⟨hn, hlen, s, happly, rfl, -⟩ := format_eq_ok h
  have hwf := metaWf_open (openStore_createDisks w₀ hn)
  obtain ⟨hlogged, hview⟩ := MetaStore.apply_eq_ok hwf.2 happly
  refine ⟨?_, ?_, membered_fresh hlen _ s, (show FenceReady (freshStore n) from fun _ => rfl).apply hwf.2 happly⟩
  · intro id handle hid
    rw [(handlesOf_eq_some hid).2.2]
    exact Nat.zero_le _
  · show s.view.nextInode.toNat ≤ 2 + s.walCursor
    rw [View.applyLocally_nextInode hview]
    exact Nat.le_trans (Nat.le_of_eq (by rfl)) (Nat.le_add_right _ _)

/-! ## What a call finds -/

theorem Sound.sizes (hs : Sound w p m) (hsmall : m.Small) : p.metaStore.view.Each fun rec => rec.size.toNat < 2 ^ 63 := by
  refine hs.records.mono fun rec hrec => ?_
  obtain ⟨content, hcontent, hsound, -⟩ := hrec
  have hlt := hsmall rec.inode content hcontent
  rw [hsound.size_eq]
  omega

theorem applyMeta_ne_panic (hwf : MetaWf p.metaStore) (hready : FenceReady p.metaStore)
    (hview : p.metaStore.view.applyLocally mop ≠ .panic) : (applyMeta env mop (w, p)).1 ≠ .panic := by
  generalize hout : applyMeta env mop (w, p) = out
  obtain ⟨r, w', p'⟩ := out
  obtain ⟨q, s', happly, rfl, -⟩ := applyMeta_cases hout
  have hq : (p.metaStore.apply env w mop).1 ≠ .panic := apply_ne_panic hwf.2 hready hview
  rw [happly] at hq
  exact Res.mapErr_ne_panic hq

/-- Below the cursors of a pool with headroom there is room for one more rewrite. -/
theorem addressedInTurn_of_cursorsLe {len : Nat} {ids : List DiskId} (h : CursorsLe limit p)
    (hroom : segmentBaseOffset + limit + ids.length * len < 2 ^ 64) : AddressedInTurn len ids p := by
  induction ids generalizing p limit with
  | nil => trivial
  | cons id ids ih =>
      rw [List.length_cons, Nat.succ_mul] at hroom
      intro handle hid
      have hle := h id handle hid
      have hmoved : CursorsLe (limit + len) (p.moveCursor id handle (handle.cursor + len)) :=
        (h.mono (Nat.le_add_right _ _)).moveCursor (by omega)
      exact ⟨⟨by omega, by omega⟩, ih hmoved (by omega)⟩

theorem Headroom.addressed {len : Nat} {ids : List DiskId} (hh : Headroom p)
    (hlog : p.metaStore.walCursor ≤ Wal.walCapacityBytes) (hids : ids.length ≤ 16) (hlen : len < 2 ^ 32) :
    AddressedInTurn len ids p := by
  have hmul : ids.length * len ≤ 16 * 2 ^ 32 := Nat.mul_le_mul hids (Nat.le_of_lt hlen)
  have hregion : segmentBaseOffset + (Segment.segmentSizeBytes + 2 ^ 36 * Wal.walCapacityBytes) + 16 * 2 ^ 32 < 2 ^ 64 := by
    decide
  exact addressedInTurn_of_cursorsLe hh.cursors (by omega)

theorem appendRecord_ne_panic (record : Segment.Record) (handle : DiskHandle) :
    (appendRecord env record w handle).1 ≠ .panic := by
  rw [appendRecord_eq]
  split
  · simp
  · split
    · simp
    · simp

theorem writeReplica_ne_panic {writeOne : World → DiskHandle → Res PoolError Nat × World}
    (hw : ∀ w handle, (writeOne w handle).1 ≠ .panic) (id : DiskId) (a : World × Pool) :
    (Pool.writeReplica writeOne id a).1 ≠ .panic := by
  obtain ⟨w, p⟩ := a
  unfold Pool.writeReplica
  dsimp only
  cases p.disks[id]? with
  | none => simp
  | some handle =>
      have hone := hw w handle
      dsimp only
      rcases hout : writeOne w handle with ⟨res, w'⟩
      rw [hout] at hone
      cases res with
      | ok c => simp
      | err e => simp
      | panic => exact absurd rfl hone

/-- What a pool finds under a number: a file it can read, or nothing. -/
theorem Sound.findInode_cases (hs : Sound w p m) (inode : InodeId) :
    (∃ rec content, p.findInode inode = .ok rec ∧ p.metaStore.view.Has inode rec ∧ m inode = some content ∧
      p.readFullContent w rec = .ok content) ∨ p.findInode inode = .err .notFound := by
  cases hentry : p.metaStore.view.inodes[inode]? with
  | none =>
      right
      have hnone : p.metaStore.view.getInode inode = .ok none := by
        unfold View.getInode
        rw [hentry]
      unfold findInode
      rw [getInode_of_view hnone]
      rfl
  | some bytes =>
      left
      obtain ⟨rec, hhas, content, hcontent, hsound, -⟩ := hs.records inode bytes hentry
      refine ⟨rec, content, findInode_of_getInode (getInode_of_view hhas.getInode_eq), hhas, ?_, readFullContent_of_sound hsound⟩
      rw [← hcontent, hhas.inode_eq]

theorem Sound.findInode_ne_panic (hs : Sound w p m) (inode : InodeId) : p.findInode inode ≠ .panic := by
  rcases hs.findInode_cases inode with ⟨rec, content, hfind, -⟩ | hfind
  · simp [hfind]
  · simp [hfind]

theorem Sound.readFullContent_ne_panic {inode : InodeId} {rec : InodeRecord} (hs : Sound w p m)
    (hfind : p.findInode inode = .ok rec) : p.readFullContent w rec ≠ .panic := by
  rcases hs.findInode_cases inode with ⟨rec', content, hfind', -, -, hread⟩ | hfind'
  · obtain rfl := Res.ok.inj (hfind.symm.trans hfind')
    simp [hread]
  · cases hfind.symm.trans hfind'

theorem Sound.planAppend_ne_panic (hs : Sound w p m) (inode : InodeId) : p.planAppend ord inode ≠ .panic := by
  refine Res.bind_ne_panic (hs.findInode_ne_panic inode) fun rec _ => ?_
  split
  · simp
  · cases rec.data with
    | chunkLog chunks => exact Res.bind_ne_panic place_ne_panic fun ids _ => by simp
    | extents xs => simp

theorem Sound.planCompleteConvert_ne_panic (hs : Sound w p m) (inode : InodeId) :
    p.planCompleteConvert w inode ≠ .panic := by
  refine Res.bind_ne_panic (hs.findInode_ne_panic inode) fun rec hfind => ?_
  split
  · simp
  · exact Res.bind_ne_panic (hs.readFullContent_ne_panic hfind) fun content _ => by simp

theorem Sound.planWrite_ne_panic {offset : UInt64} {data : Bytes} (hs : Sound w p m) (inode : InodeId)
    (hrange : offset.toNat + data.length < 2 ^ 32) : p.planWrite w inode offset data ≠ .panic := by
  refine Res.bind_ne_panic (hs.findInode_ne_panic inode) fun rec hfind => ?_
  split
  · simp
  · refine Res.bind_ne_panic (hs.readFullContent_ne_panic hfind) fun content _ => ?_
    rw [if_neg (by omega), if_neg (by omega)]
    simp [copyInto_grown]

/-- A replica loop of appends stops, but does not panic. -/
theorem prepareAppend_ne_panic {inode : InodeId} {payload : Bytes} (hs : Sound w p m) :
    (Pool.prepareAppend env inode payload (w, p)).1 ≠ .panic := by
  refine Action.bind_ne_panic (hs.planAppend_ne_panic inode) fun planned a _ => ?_
  have hloop : ∀ record ids (a : World × Pool), (Pool.writeReplicas (appendRecord env record) ids a).1 ≠ .panic := by
    intro record ids
    induction ids with
    | nil => exact fun a h => by cases h
    | cons id ids ih =>
        intro a
        refine Action.bind_ne_panic (writeReplica_ne_panic (fun w handle => appendRecord_ne_panic record handle) id a) ?_
        exact fun written b _ => Action.bind_ne_panic (ih b) fun rest c _ h => by cases h
  exact Action.bind_ne_panic (hloop _ _ a) fun replicas b _ h => by cases h

/-- No data phase panics. -/
theorem Headroom.phase_ne_panic {x : PoolM MetaOp} (hh : Headroom p) (hs : Sound w p m) (hsmall : m.Small)
    (hlog : p.metaStore.walCursor ≤ Wal.walCapacityBytes) (hrange : op.InRange) (hop : dataPhase env op = some x) :
    (x (w, p)).1 ≠ .panic := by
  cases dataPhase_cases hop with
  | append => exact prepareAppend_ne_panic hs
  | @completeConvert inode =>
      refine prepareExtents_ne_panic (hs.planCompleteConvert_ne_panic inode) fun redundancy content hplan _ ids hplace => ?_
      exact hh.addressed hlog (length_place_le hplace) (hs.length_planCompleteConvert hsmall hplan)
  | @write inode offset data =>
      refine prepareExtents_ne_panic (hs.planWrite_ne_panic inode hrange) fun redundancy content hplan _ ids hplace => ?_
      exact hh.addressed hlog (length_place_le hplace) (hs.length_planWrite hsmall hrange hplan)

/-- What a data phase hands over is in range. -/
theorem inRange_of_dataPhase {x : PoolM MetaOp} (hok : HandlesOk p) (hop : dataPhase env op = some x)
    (hx : x (w, p) = (.ok mop, w₁, p₁)) : mop.InRange := by
  cases dataPhase_cases hop with
  | append =>
      obtain ⟨inode, payload, chunk, -, rfl⟩ | ⟨_, _, he, -⟩ | ⟨_, _, _, _, he, -⟩ := dataPhase_eq_ok hop hx
      · trivial
      · cases he
      · cases he
  | completeConvert =>
      obtain ⟨xs, rfl⟩ := prepareExtents_mkOp hx
      trivial
  | write =>
      obtain ⟨redundancy, content, xs, -, hwhole, rfl, -⟩ := prepareExtents_whole hok hx
      intro x hxs
      rw [(hwhole.stop_eq x hxs).2]
      have hlt := Nat.mod_lt content.length (show 0 < 2 ^ 32 by decide)
      omega

/-- **No call panics in a pool with headroom**, whatever the disks do. -/
theorem Headroom.step_ne_panic (hh : Headroom p) (hs : Sound w p m) (hsmall : m.Small)
    (hlog : p.metaStore.walCursor ≤ Wal.walCapacityBytes) (hrange : op.InRange) :
    (Pool.step env op (w, p)).1 ≠ .panic := by
  have hready := hh.ready
  have hunit : ∀ x : PoolM Unit, (x (w, p)).1 ≠ .panic → (unitVal x (w, p)).1 ≠ .panic :=
    fun x hx => Action.bind_ne_panic hx fun u a _ h => by cases h
  have hphase : ∀ x, dataPhase env op = some x → (Pool.step env op (w, p)).1 ≠ .panic := by
    intro x hop
    rw [step_of_dataPhase hop]
    refine hunit _ (Action.bind_ne_panic (hh.phase_ne_panic hs hsmall hlog hrange hop) fun mop a hx => ?_)
    have hstore : a.2.metaStore = p.metaStore := metaStore_of_dataPhase hop hx
    refine applyMeta_ne_panic (w := a.1) (p := a.2) (hstore ▸ hs.wf) (hstore ▸ hready) ?_
    rw [hstore]
    exact (hs.sizes hsmall).applyLocally_ne_panic (inRange_of_dataPhase hs.handles hop hx)
  have hmeta : ∀ mop : MetaOp, mop.InRange → (unitVal (applyMeta env mop) (w, p)).1 ≠ .panic :=
    fun mop hmop => hunit _ (applyMeta_ne_panic hs.wf hready ((hs.sizes hsmall).applyLocally_ne_panic hmop))
  cases op with
  | append inode payload => exact hphase _ rfl
  | completeConvert inode => exact hphase _ rfl
  | write inode offset data => exact hphase _ rfl
  | beginConvert inode => exact hmeta (.beginConvert inode) trivial
  | setRedundancy inode scheme => exact hmeta (.setRedundancyScheme inode scheme) trivial
  | unlink parent name => exact hmeta (.unlink parent name) trivial
  | read inode offset len =>
      refine Action.bind_ne_panic ?_ fun b a _ h => by cases h
      refine Res.bind_ne_panic (hs.findInode_ne_panic inode) fun rec hfind => ?_
      exact Res.bind_ne_panic (hs.readFullContent_ne_panic hfind) fun content _ => by simp
  | createFile parent name redundancy uid gid unixMode now =>
      have hnext := hh.next
      have hregion : 3 + Wal.walCapacityBytes < 2 ^ 64 := by decide
      refine Action.bind_ne_panic (Action.bind_ne_panic ?_ fun id a halloc => ?_) fun id a _ h => by cases h
      · have hlt : p.metaStore.view.nextInode.toNat + (1 : UInt64).toNat < 2 ^ 64 := by
          rw [UInt64.toNat_one]
          omega
        unfold Pool.allocInode MetaStore.allocInode
        simp [Res.checkedAdd_of_lt hlt]
      obtain ⟨w₁, p₁⟩ := a
      obtain ⟨id', s₁, hstore, hid, rfl, rfl⟩ := allocInode_cases halloc (by simp)
      obtain rfl := Res.ok.inj hid
      obtain ⟨rfl, -, -, hgroup⟩ := allocInode_counts hstore
      have hs₁ := hs.allocInode hstore
      have hready₁ : FenceReady s₁ := by
        unfold FenceReady MetaStore.group
        rw [hgroup]
        exact hready
      refine Action.bind_ne_panic (applyMeta_ne_panic hs₁.wf hready₁ ?_) fun u b hcreate => ?_
      · refine (hs₁.sizes hsmall).applyLocally_ne_panic (show _ + 1 < 2 ^ 64 from ?_)
        show p.metaStore.view.nextInode.toNat + 1 < 2 ^ 64
        omega
      · obtain ⟨w₂, p₂⟩ := b
        obtain ⟨s₂, happly, rfl⟩ := applyMeta_eq_ok hcreate
        have hwf₂ := hs₁.wf.apply happly
        refine Action.bind_ne_panic (applyMeta_ne_panic hwf₂ (hready₁.apply hs₁.wf.2 happly) ?_) fun v c _ h => by cases h
        simp [View.applyLocally]

/-! ## The log, also after a panic -/

/-- The log has not become shorter. -/
def LogGrows (a b : World × Pool) : Prop :=
  MetaWf a.2.metaStore → MetaWf b.2.metaStore ∧ a.2.metaStore.walCursor ≤ b.2.metaStore.walCursor

theorem logGrows_refl (a : World × Pool) : LogGrows a a := fun hwf => ⟨hwf, Nat.le_refl _⟩

theorem logGrows_trans (a b c : World × Pool) (h : LogGrows a b) (h' : LogGrows b c) : LogGrows a c := by
  intro hwf
  obtain ⟨hb, hab⟩ := h hwf
  obtain ⟨hc, hbc⟩ := h' hb
  exact ⟨hc, Nat.le_trans hab hbc⟩

theorem logGrows_of_sameStore {α : Type} {x : PoolM α} (hx : Action.Keeps SameStore x) : Action.Keeps LogGrows x := by
  intro a hwf
  have hsame : (x a).2.2.metaStore = a.2.metaStore := hx a
  rw [hsame]
  exact ⟨hwf, Nat.le_refl _⟩

theorem logGrows_applyMeta (env : Env) (mop : MetaOp) : Action.Keeps LogGrows (applyMeta env mop) := by
  rintro ⟨w, p⟩ hwf
  generalize hout : applyMeta env mop (w, p) = out
  obtain ⟨r, w', p'⟩ := out
  obtain ⟨q, s', happly, -, rfl⟩ := applyMeta_cases hout
  refine ⟨hwf.apply happly, ?_⟩
  have houtcome := MetaStore.apply_outcome hwf.2 happly
  generalize p.metaStore.commitReport env w mop = report at houtcome
  show p.metaStore.walCursor ≤ s'.walCursor
  cases houtcome with
  | logged hc => simp
  | degraded hc hepoch => simp
  | epochOverflow hc => exact Nat.le_refl _
  | refused hc => exact Nat.le_refl _

theorem logGrows_allocInode : Action.Keeps LogGrows allocInode := by
  rintro ⟨w, p⟩ hwf
  unfold Pool.allocInode
  dsimp only
  split
  · rename_i id s halloc
    exact ⟨hwf.alloc halloc, Nat.le_of_eq (allocInode_counts halloc).2.2.1.symm⟩
  · exact ⟨hwf, Nat.le_refl _⟩
  · exact ⟨hwf, Nat.le_refl _⟩

/-- However a call of the pool ends, the log has not become shorter. -/
theorem logGrows_phase {x : PoolM MetaOp} (hop : dataPhase env op = some x) :
    Action.Keeps LogGrows (x >>= applyMeta env) :=
  (logGrows_of_sameStore (sameStore_dataPhase hop)).bind logGrows_trans (logGrows_applyMeta env)

theorem logGrows_createFile (env : Env) (parent : InodeId) (name : String) (redundancy : RedundancyScheme)
    (uid gid unixMode : UInt32) (now : UInt64) :
    Action.Keeps LogGrows (Pool.createFile env parent name redundancy uid gid unixMode now) := by
  refine logGrows_allocInode.bind logGrows_trans fun id => ?_
  refine (logGrows_applyMeta env _).bind logGrows_trans fun _ => ?_
  exact (logGrows_applyMeta env _).bind logGrows_trans fun _ => Action.keeps_pure logGrows_refl id

end Pool

end Tartine
