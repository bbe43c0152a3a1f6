import Tartine.Meta.Capacity
import Tartine.Meta.Headroom
import Tartine.Meta.PolicyRoom

/-!
# `Meta.Room` — calls that find room

On disks that do not fail, a call that stores data is turned away for two reasons only: there are no disks for the policy
of its file, or there is no space on them. A policy that has room in the pool map is placed on disks that are there, and
on different ones, so a call moves each cursor at most once, by no more than what it stores. As long as what has been
stored, added up, is within a segment, the next call finds space, whatever disks were chosen.

* `stores_of_room` — the replica loop;
* `prepareAppend_of_room`, `prepareExtents_of_room` — the two data phases;
* `Affords` — a call that finds both, and is granted;
* `affords_append`, `affords_write`, `affords_completeConvert` — which of the calls that store data do;
* `roomy_default` — the policy of a new file, in a new pool.
-/

namespace Tartine.Pool

open Basis Kcore Placement

variable {env : Env} {ord : IterOrder} {w w' w₁ : World} {p p' p₁ : Pool} {op : PoolOp} {mop : MetaOp} {limit : Nat}
  {inode : InodeId}

/-! ## The replica loop -/

section Loop

variable {buf : Bytes} {id : DiskId} {ids : List DiskId} {handle : DiskHandle}

/-- Each of the disks has room for the buffer. -/
def RoomOn (buf : Bytes) (ids : List DiskId) (p : Pool) : Prop :=
  ∀ id ∈ ids, ∀ handle, p.disks[id]? = some handle → HasRoom buf handle

theorem CursorsLe.roomOn (h : CursorsLe limit p) (hfit : limit + buf.length ≤ Segment.segmentSizeBytes) (ids : List DiskId) :
    RoomOn buf ids p := by
  intro id hid handle hhandle
  have hle := h id handle hhandle
  unfold HasRoom
  omega

/-- Storing on one disk leaves the others as they were. -/
theorem disks_moveCursor_of_mem {id' : DiskId} {cursor : Nat} (hid : id ∉ ids) (hid' : id' ∈ ids) :
    (p.moveCursor id handle cursor).disks[id']? = p.disks[id']? := by
  rw [moveCursor_disks, if_neg]
  rintro rfl
  exact hid hid'

theorem RoomOn.tail {cursor : Nat} (h : RoomOn buf (id :: ids) p) (hid : id ∉ ids) :
    RoomOn buf ids (p.moveCursor id handle cursor) := by
  intro id' hid' handle' hhandle'
  rw [disks_moveCursor_of_mem hid hid'] at hhandle'
  exact h id' (List.mem_cons_of_mem _ hid') handle' hhandle'

/-- Different disks with room are disks with room in turn. -/
theorem fitsInTurn_of_room (hnodup : ids.Nodup) (hroom : RoomOn buf ids p) : FitsInTurn env buf ids (w, p) := by
  induction ids generalizing w p with
  | nil => trivial
  | cons id ids ih =>
      obtain ⟨hnot, hnodup⟩ := List.nodup_cons.mp hnodup
      intro handle hid
      exact ⟨hroom id List.mem_cons_self handle hid, fun w' _ => ih hnodup (hroom.tail hnot)⟩

/-- **The replica loop stores a replica on every disk**, if the disks are different ones that are there and have room. -/
theorem stores_of_room (ord : IterOrder) (hbuf : buf ≠ []) (hnodup : ids.Nodup) (hmem : Members ids p) (hroom : RoomOn buf ids p)
    (hle : ∀ id ∈ ids, ∀ handle, p.disks[id]? = some handle → handle.cursor ≤ limit)
    (hall : CursorsLe (limit + buf.length) p) :
    ∃ replicas w' p', writeReplicas (storeWithin (Env.healthy ord) buf) ids (w, p) = (.ok replicas, w', p') ∧
      replicas.map Prod.fst = ids ∧ CursorsLe (limit + buf.length) p' := by
  induction ids generalizing w p with
  | nil => exact ⟨[], w, p, rfl, rfl, hall⟩
  | cons id ids ih =>
      obtain ⟨hnot, hnodup⟩ := List.nodup_cons.mp hnodup
      obtain ⟨handle, hid⟩ := Option.isSome_iff_exists.mp (hmem id List.mem_cons_self)
      have hturn := writeReplica_stored (s := (w, p)) hbuf hid (hroom id List.mem_cons_self handle hid)
        (World.writeSync_healthy ord w handle.disk (segmentBaseOffset + handle.cursor) buf)
      have hcursor := hle id List.mem_cons_self handle hid
      have hrest := ih (w := { w.setDisk handle.disk ((w.disk handle.disk).writeAt (segmentBaseOffset + handle.cursor) buf) with
          clock := w.clock + 2 }) (p := p.moveCursor id handle (handle.cursor + buf.length)) hnodup
        (Members.moveCursor fun id' hid' => hmem id' (List.mem_cons_of_mem _ hid')) (hroom.tail hnot)
        (by
          intro id' hid' handle' hhandle'
          rw [disks_moveCursor_of_mem hnot hid'] at hhandle'
          exact hle id' (List.mem_cons_of_mem _ hid') handle' hhandle')
        (hall.moveCursor (by omega))
      obtain ⟨replicas, w', p', hloop, hids, hcursors⟩ := hrest
      refine ⟨(id, UInt64.ofNat handle.cursor) :: replicas, w', p', ?_, by rw [List.map_cons, hids], hcursors⟩
      show (writeReplica _ id >>= _) (w, p) = _
      rw [Action.bind_of_ok hturn, Action.bind_of_ok hloop]
      rfl

end Loop

/-! ## Data phases -/

/-- For every key, the policy is placed on different disks that are there. -/
def Spread (ord : IterOrder) (p : Pool) (scheme : RedundancyScheme) : Prop :=
  ∀ key, ∃ ids, p.place ord scheme key = .ok ids ∧ ids.Nodup ∧ Members ids p

/-- **A policy with room is spread.** -/
theorem spread_of_roomy {slots : List ReplicaSlot} (hpool : p.poolMap.disks.size < 2 ^ 32 - 1) (hmem : Membered p)
    (hfew : slots.length ≤ 16) (hroomy : p.poolMap.Roomy slots) (ord : IterOrder) : Spread ord p (.replicated slots) := by
  intro key
  obtain ⟨ids, hplace⟩ := place_of_roomy hpool hroomy ord key
  exact ⟨ids, hplace, (place_meets hpool hfew hplace).2, members_of_place hmem hplace⟩

/-- A chunk is stored. -/
theorem prepareAppend_of_room {payload : Bytes} {chunkSeq : UInt64} {ids : List DiskId}
    (hplan : p.planAppend ord inode = .ok (chunkSeq, ids)) (hnodup : ids.Nodup) (hmem : Members ids p) (h : CursorsLe limit p)
    (hfit : limit + (Segment.headerLen + payload.length) ≤ Segment.segmentSizeBytes) :
    ∃ chunk w' p', prepareAppend (Env.healthy ord) inode payload (w, p) = (.ok (.appendChunk inode chunk), w', p') ∧
      CursorsLe (limit + (Segment.headerLen + payload.length)) p' := by
  have hlen : (Segment.encode (Segment.Record.new inode chunkSeq payload)).length = Segment.headerLen + payload.length :=
    Segment.length_encode _
  have hread : (Action.reads (fun s => s.2.planAppend (Env.healthy ord).ord inode) : PoolM _) (w, p) =
      (.ok (chunkSeq, ids), w, p) := Action.reads_eq_ok.mpr ⟨hplan, rfl⟩
  obtain ⟨replicas, w', p', hloop, -, hcursors⟩ := stores_of_room (w := w) ord (Segment.encode_ne_nil _) hnodup hmem
    (h.roomOn (by rwa [hlen]) ids) (fun id _ => h id) (h.mono (Nat.le_add_right _ _))
  rw [← appendRecord_eq_storeWithin] at hloop
  rw [hlen] at hcursors
  let chunk : ChunkPointer := ⟨chunkSeq, replicas, UInt32.ofNat payload.length, Crc32c.checksum payload⟩
  refine ⟨chunk, w', p', ?_, hcursors⟩
  rw [show prepareAppend (Env.healthy ord) inode payload (w, p) = _ from Action.bind_of_ok hread]
  exact Action.bind_of_ok hloop

/-- A whole file is stored. -/
theorem prepareExtents_of_room (plan : World → Pool → Res PoolError (RedundancyScheme × Bytes)) (mkOp : List Extent → MetaOp)
    {redundancy : RedundancyScheme} {content : Bytes} (hplan : plan w p = .ok (redundancy, content))
    (hspread : Spread ord p redundancy) (h : CursorsLe limit p)
    (hfit : limit + content.length ≤ Segment.segmentSizeBytes) :
    ∃ xs w' p', prepareExtents (Env.healthy ord) inode plan mkOp (w, p) = (.ok (mkOp xs), w', p') ∧
      WholeExtent content xs ∧ CursorsLe (limit + content.length) p' := by
  have hread : (Action.reads (fun s => plan s.1 s.2) : PoolM _) (w, p) = (.ok (redundancy, content), w, p) :=
    Action.reads_eq_ok.mpr ⟨hplan, rfl⟩
  have hphase : prepareExtents (Env.healthy ord) inode plan mkOp (w, p) =
      (writeWholeFileExtent (Env.healthy ord) inode redundancy 0 content >>= fun xs => pure (mkOp xs)) (w, p) :=
    Action.bind_of_ok hread
  rw [hphase]
  by_cases hempty : content = []
  · refine ⟨[], w, p, ?_, Or.inl ⟨hempty, rfl⟩, h.mono (Nat.le_add_right _ _)⟩
    unfold writeWholeFileExtent
    rw [if_pos hempty]
    rfl
  · obtain ⟨ids, hplace, hnodup, hmem⟩ := hspread (placementKey inode (UInt64.ofNat (2 ^ 64 - 1)))
    have hids : (Action.reads (fun s => s.2.place (Env.healthy ord).ord redundancy
        (placementKey inode (UInt64.ofNat (2 ^ 64 - 1)))) : PoolM _) (w, p) = (.ok ids, w, p) :=
      Action.reads_eq_ok.mpr ⟨hplace, rfl⟩
    have hroom := h.roomOn hfit ids
    obtain ⟨replicas, w', p', hloop, hfst, hcursors⟩ := stores_of_room (w := w) ord hempty hnodup hmem hroom
      (fun id _ => h id) (h.mono (Nat.le_add_right _ _))
    rw [← writeReplicas_storeExtent hempty (fitsInTurn_of_room hnodup hroom)] at hloop
    let x : Extent := ⟨0, UInt32.ofNat content.length, replicas, Crc32c.checksum content⟩
    have hstored : writeWholeFileExtent (Env.healthy ord) inode redundancy 0 content (w, p) = (.ok [x], w', p') := by
      unfold writeWholeFileExtent
      rw [if_neg hempty, Action.bind_of_ok hids, Action.bind_of_ok hloop]
      rfl
    have hfew : replicas.length ≤ 16 := by
      rw [← List.length_map Prod.fst, hfst]
      exact length_place_le hplace
    exact ⟨[x], w', p', Action.bind_of_ok hstored, Or.inr ⟨hempty, replicas, hfew, rfl⟩, hcursors⟩

/-! ## Calls -/

/-- The pool can afford the call: it finds disks and space for what it stores, leaves no cursor past `limit`, and the
    tables do not refuse it. -/
def Affords (ord : IterOrder) (w : World) (p : Pool) (op : PoolOp) (limit : Nat) : Prop :=
  ∃ x mop w₁ p₁, dataPhase (Env.healthy ord) op = some x ∧ x (w, p) = (.ok mop, w₁, p₁) ∧ CursorsLe limit p₁ ∧
    ∀ e, p.metaStore.view.applyLocally mop ≠ .err e

/-- **A call that the pool can afford is not refused.** -/
theorem Affords.ne_err (h : Affords ord w p op limit) (e : PoolError) :
    (step (Env.healthy ord) op (w, p)).1 ≠ .err e := by
  obtain ⟨x, mop, w₁, p₁, hop, hx, -, htakes⟩ := h
  intro he
  rcases step_cases (show step _ op (w, p) = (.err e, _, _) from Prod.ext he rfl) (by simp) with
    ⟨⟨_, _, _, rfl⟩, -⟩ | ⟨x', e', hx', hphase, -⟩ | ⟨mop', w', p', q, s', hh, happly, -, hcl⟩
  · cases hop
  · obtain rfl := Option.some.inj (hop.symm.trans hx')
    cases hphase.symm.trans hx
  · cases hh with
    | phase hop' hx' =>
        obtain rfl := Option.some.inj (hop.symm.trans hop')
        obtain ⟨hmop, hend⟩ := Prod.mk.inj (hx.symm.trans hx')
        obtain rfl := Res.ok.inj hmop
        obtain ⟨rfl, rfl⟩ := Prod.mk.inj hend
        rw [metaStore_of_dataPhase hop hx] at happly
        cases hcl with
        | refused e' => exact htakes e' (MetaStore.applyLocally_of_refused happly)
    | beginConvert => cases hop
    | setRedundancy => cases hop
    | unlink => cases hop
    | create halloc => cases hop
    | link halloc hcreate => cases hop

/-- The cursors a call leaves are those its data phase left. -/
theorem CursorsLe.step {res : Res PoolError PoolVal} (h : CursorsLe limit p)
    (hphase : ∀ x, dataPhase env op = some x → CursorsLe limit (x (w, p)).2.2)
    (hstep : Pool.step env op (w, p) = (res, w', p')) (hres : res ≠ .panic) : CursorsLe limit p' :=
  step_rule (I := fun _ p => CursorsLe limit p) h hphase (fun _ _ _ => h) (fun _ _ _ _ _ _ _ h₁ _ _ => h₁) hstep hres

theorem Affords.cursors {res : Res PoolError PoolVal} (h : Affords ord w p op limit) (hle : CursorsLe limit p)
    (hstep : step (Env.healthy ord) op (w, p) = (res, w', p')) (hres : res ≠ .panic) : CursorsLe limit p' := by
  obtain ⟨x, mop, w₁, p₁, hop, hx, hcursors, -⟩ := h
  refine hle.step (fun x' hop' => ?_) hstep hres
  obtain rfl := Option.some.inj (hop.symm.trans hop')
  rwa [hx]

section Data

variable {rec : InodeRecord} {content : Bytes}

/-- An append is granted where there is room for its record. -/
theorem affords_append {payload : Bytes} (hhas : p.metaStore.view.Has inode rec) (hmode : rec.mode ≠ .writable)
    (hsound : RecordSound (w, p) rec content) (hspread : Spread ord p rec.redundancy) (h : CursorsLe limit p)
    (hfit : limit + (Segment.headerLen + payload.length) ≤ Segment.segmentSizeBytes) :
    Affords ord w p (.append inode payload) (limit + (Segment.headerLen + payload.length)) := by
  have hfind : p.findInode inode = .ok rec := findInode_of_getInode (getInode_of_view hhas.getInode_eq)
  have hready : ¬(rec.mode ≠ .appendOnly ∧ rec.mode ≠ .converting) := by
    cases hm : rec.mode with
    | writable => exact absurd hm hmode
    | _ => simp
  obtain ⟨chunks, hdata⟩ : ∃ chunks, rec.data = .chunkLog chunks := by
    have hlays := hsound.lays
    generalize rec.mode = mode at hlays hmode
    generalize rec.data = data at hlays
    cases hlays with
    | chunkLog => exact ⟨_, rfl⟩
    | extents => exact absurd rfl hmode
  obtain ⟨ids, hplace, hnodup, hmem⟩ := hspread (placementKey inode (UInt64.ofNat chunks.length))
  have hplan : p.planAppend ord inode = .ok (UInt64.ofNat chunks.length, ids) := by
    unfold planAppend
    rw [hfind, Res.ok_bind, if_neg hready, hdata]
    dsimp only
    rw [hplace]
    rfl
  obtain ⟨chunk, w₁, p₁, hx, hcursors⟩ := prepareAppend_of_room (w := w) hplan hnodup hmem h hfit
  refine ⟨_, _, w₁, p₁, rfl, hx, hcursors, fun e he => ?_⟩
  have hread : p.metaStore.view.applyLocally (.appendChunk inode chunk) = _ := congrArg (· >>= _) hhas.readInode_eq
  rw [he, Res.ok_bind, hdata] at hread
  dsimp only at hread
  unfold Res.checkedAdd at hread
  split at hread
  · cases hread
  · cases hread

/-- A random write is granted where there is room for the whole file. -/
theorem affords_write {offset : UInt64} {data : Bytes} (hhas : p.metaStore.view.Has inode rec) (hmode : rec.mode = .writable)
    (hsound : RecordSound (w, p) rec content) (hspread : Spread ord p rec.redundancy)
    (h : CursorsLe limit p)
    (hfit : limit + (overwrite content offset.toNat data).length ≤ Segment.segmentSizeBytes) :
    Affords ord w p (.write inode offset data) (limit + (overwrite content offset.toNat data).length) := by
  have hfind : p.findInode inode = .ok rec := findInode_of_getInode (getInode_of_view hhas.getInode_eq)
  have hlen : (overwrite content offset.toNat data).length = max content.length (offset.toNat + data.length) :=
    length_overwrite ..
  have hend : offset.toNat + data.length < 2 ^ 63 := by
    have hsegment : Segment.segmentSizeBytes < 2 ^ 63 := by decide
    omega
  have hplan : p.planWrite w inode offset data = .ok (rec.redundancy, overwrite content offset.toNat data) := by
    rw [planWrite_of_content hfind hmode (readFullContent_of_sound hsound), if_neg (not_endOverflows hend)]
  obtain ⟨xs, w₁, p₁, hx, hxs, hcursors⟩ := prepareExtents_of_room (w := w) (fun w p => p.planWrite w inode offset data)
    (.updateExtents inode) hplan hspread h hfit
  refine ⟨_, _, w₁, p₁, rfl, hx, hcursors, fun e he => ?_⟩
  obtain ⟨u, hu⟩ := exists_updateExtents hhas hmode hxs
  cases hu.symm.trans he

/-- A conversion is completed where there is room for the whole file. -/
theorem affords_completeConvert (hhas : p.metaStore.view.Has inode rec) (hmode : rec.mode = .converting)
    (hsound : RecordSound (w, p) rec content) (hspread : Spread ord p rec.redundancy)
    (h : CursorsLe limit p) (hfit : limit + content.length ≤ Segment.segmentSizeBytes) :
    Affords ord w p (.completeConvert inode) (limit + content.length) := by
  have hfind : p.findInode inode = .ok rec := findInode_of_getInode (getInode_of_view hhas.getInode_eq)
  have hplan : p.planCompleteConvert w inode = .ok (rec.redundancy, content) := by
    rw [planCompleteConvert_of_mode hfind hmode, readFullContent_of_sound hsound]
    rfl
  obtain ⟨xs, w₁, p₁, hx, -, hcursors⟩ := prepareExtents_of_room (w := w) (fun w p => p.planCompleteConvert w inode)
    (.completeConvert inode) hplan hspread h hfit
  refine ⟨_, _, w₁, p₁, rfl, hx, hcursors, fun e he => ?_⟩
  obtain ⟨u, hu⟩ := exists_completeConvert hhas hmode xs
  cases hu.symm.trans he

end Data

/-! ## A new pool -/

section Fresh

variable {classes : List DiskClass} {n : Nat}

/-- The entries of disks, one after another. -/
def enter (m : Std.ExtTreeMap DiskId DiskEntry) (e : DiskClass × Nat) : Std.ExtTreeMap DiskId DiskEntry :=
  m.insert (diskId e.2) (diskEntry e.2 e.1)

theorem getElem?_enter (m : Std.ExtTreeMap DiskId DiskEntry) (e : DiskClass × Nat) (id : DiskId) :
    (enter m e)[id]? = if diskId e.2 = id then some (diskEntry e.2 e.1) else m[id]? := by
  rw [enter, Std.ExtTreeMap.getElem?_insert]
  simp only [Std.LawfulEqCmp.compare_eq_iff_eq]

/-- An entry stands, once it is made. -/
theorem isSome_entered {l : List (DiskClass × Nat)} {m : Std.ExtTreeMap DiskId DiskEntry} {id : DiskId}
    (h : (∃ e ∈ l, diskId e.2 = id) ∨ (m[id]?).isSome) : ((l.foldl enter m)[id]?).isSome := by
  induction l generalizing m with
  | nil =>
      rcases h with ⟨e, he, -⟩ | h
      · cases he
      · exact h
  | cons e l ih =>
      refine ih ?_
      rw [getElem?_enter]
      rcases h with ⟨e', he', hid⟩ | h
      · rcases List.mem_cons.mp he' with rfl | hmem
        · exact Or.inr (by simp [hid])
        · exact Or.inl ⟨e', hmem, hid⟩
      · split
        · exact Or.inr rfl
        · exact Or.inr h

theorem mem_entered {l : List (DiskClass × Nat)} {m : Std.ExtTreeMap DiskId DiskEntry} {id : DiskId} {entry : DiskEntry}
    (h : (l.foldl enter m)[id]? = some entry) : (∃ e : DiskClass × Nat, entry = diskEntry e.2 e.1) ∨ m[id]? = some entry := by
  induction l generalizing m with
  | nil => exact Or.inr h
  | cons e l ih =>
      rcases ih h with hentry | hentry
      · exact Or.inl hentry
      · rw [getElem?_enter] at hentry
        split at hentry
        · exact Or.inl ⟨e, (Option.some.inj hentry).symm⟩
        · exact Or.inr hentry

theorem size_entered (l : List (DiskClass × Nat)) (m : Std.ExtTreeMap DiskId DiskEntry) :
    (l.foldl enter m).size ≤ m.size + l.length := by
  induction l generalizing m with
  | nil => exact Nat.le_refl _
  | cons e l ih =>
      have hinsert : (enter m e).size ≤ m.size + 1 := Std.ExtTreeMap.size_insert_le
      have hrest := ih (enter m e)
      rw [List.foldl_cons, List.length_cons]
      omega

theorem size_poolMapOf (classes : List DiskClass) : (poolMapOf classes).disks.size ≤ classes.length := by
  have hsize := size_entered classes.zipIdx ∅
  rwa [Std.ExtTreeMap.size_empty, Nat.zero_add, List.length_zipIdx] at hsize

/-- Every disk of a new pool can serve an unconstrained slot. -/
theorem metBy_poolMapOf {i : Nat} (hi : i < classes.length) :
    (ReplicaSlot.anyOfClass none).MetBy (poolMapOf classes) (diskId i) := by
  have hmem : (classes[i], i) ∈ classes.zipIdx := by
    rw [List.mem_zipIdx_iff_getElem?]
    exact List.getElem?_eq_getElem hi
  have hsome : ((poolMapOf classes).disks[diskId i]?).isSome := isSome_entered (Or.inl ⟨_, hmem, rfl⟩)
  obtain ⟨entry, hentry⟩ := Option.isSome_iff_exists.mp hsome
  refine ⟨entry, hentry, ?_⟩
  rcases mem_entered hentry with ⟨e, rfl⟩ | hnone
  · exact ⟨rfl, rfl, trivial⟩
  · simp at hnone

/-- **The policy of a new file has room**: as many unconstrained slots as there are disks, at most two. -/
theorem roomy_default (hlen : classes.length = n) :
    (poolMapOf classes).Roomy (List.replicate (min 2 n) (.anyOfClass none)) := by
  intro i slot hslot
  have hlength : i < min 2 n := by
    obtain ⟨hi, -⟩ := List.getElem?_eq_some_iff.mp hslot
    rw [List.length_take, List.length_replicate] at hi
    omega
  obtain rfl : slot = .anyOfClass none := by
    have hmem := List.mem_of_mem_take (List.mem_of_getElem? hslot)
    exact (List.mem_replicate.mp hmem).2
  -- the rivals are the slots before it
  have hrivals : (poolMapOf classes).rivals ((List.replicate (min 2 n) (.anyOfClass none)).take i) (.anyOfClass none) ≤ i :=
    Nat.le_trans List.countP_le_length (by rw [List.length_take]; exact Nat.min_le_left _ _)
  have hdisks : ((List.range (min 2 n)).map diskId).length ≤
      ((poolMapOf classes).disksFor (.anyOfClass none)).length := by
    refine List.Subperm.length_le (List.Nodup.subperm ?_ ?_)
    · refine List.Nodup.map_on ?_ List.nodup_range
      have hfew : ∀ i < 2, ∀ j < 2, diskId i = diskId j → i = j := by decide
      intro i hi j hj
      rw [List.mem_range] at hi hj
      exact hfew i (by omega) j (by omega)
    · intro id hid
      obtain ⟨i, hi, rfl⟩ := List.mem_map.mp hid
      rw [List.mem_range] at hi
      exact mem_disksFor.mpr (metBy_poolMapOf (by omega))
  rw [List.length_map, List.length_range] at hdisks
  omega

end Fresh

end Tartine.Pool
