import Tartine.Meta.Layout
import Tartine.Meta.PoolRefinement

/-!
# `Meta.Capacity` — whether file data stays inside its disk

The two ways to store file data advance one cursor per disk. A chunk record goes through a `SegmentWriter`, which refuses
what does not fit the rest of the segment. A whole-file extent is written as it is, with no look at the space left.

`storeWithin` is a store behind the segment writer's bound: `append` is a loop of it (`appendRecord_eq_storeWithin`), and
so is a rewrite as long as the content fits every disk the loop reaches (`writeReplicas_storeExtent`).

* `poolCalls_inside` — the cursors are inside the segment when every call so far kept them there;
* `data_inside_iff` — in a run without reopens, allocation stays inside the disks exactly if every rewrite finds room on
  each disk its loop reaches;
* `write_past_end` — a write that does not, and ends past the end of the disk.
-/

namespace Tartine.Pool

open Basis

/-! ## One disk -/

/-- The disk's cursor is in its data region, or at its end. -/
def CursorsInside (p : Pool) : Prop :=
  ∀ (id : DiskId) (handle : DiskHandle), p.disks[id]? = some handle → handle.cursor ≤ Segment.segmentSizeBytes

/-- There is room for the buffer on the disk. -/
def HasRoom (buf : Bytes) (handle : DiskHandle) : Prop := handle.cursor + buf.length ≤ Segment.segmentSizeBytes

/-- A buffer stored at a disk's cursor, unless it does not fit the rest of the segment. -/
def storeWithin (env : Env) (buf : Bytes) (w : World) (handle : DiskHandle) : Res PoolError Nat × World :=
  if Segment.segmentSizeBytes - handle.cursor < buf.length then (.err (.io .segmentFull), w)
  else
    match w.writeSync env handle.disk (segmentBaseOffset + handle.cursor) buf with
    | (.error e, w) => (.err (.io e), w)
    | (.ok (), w)   => (.ok (handle.cursor + buf.length), w)

/-- Its write. -/
def writeWithin (buf : Bytes) (handle : DiskHandle) : List Write :=
  if Segment.segmentSizeBytes - handle.cursor < buf.length then []
  else [⟨handle.disk, segmentBaseOffset + handle.cursor, buf.length⟩]

theorem appendRecord_eq_storeWithin (env : Env) (record : Segment.Record) :
    appendRecord env record = storeWithin env (Segment.encode record) :=
  funext fun w => funext fun handle => appendRecord_eq env record w handle

section Loop

variable {env : Env} {buf : Bytes} {id : DiskId} {ids : List DiskId} {handle : DiskHandle} {s : World × Pool}

/-- The segment writer's check, for a buffer with something in it. -/
theorem not_hasRoom_iff (hbuf : buf ≠ []) :
    ¬HasRoom buf handle ↔ Segment.segmentSizeBytes - handle.cursor < buf.length := by
  have hlen := List.length_pos_iff.mpr hbuf
  unfold HasRoom
  omega

/-- How one turn of the loop behind the bound ends: without the disk or without room, nothing done; with the device's
    error; or with the buffer stored and the cursor past it. -/
inductive Turn (env : Env) (buf : Bytes) (id : DiskId) (s : World × Pool) :
    Res PoolError (DiskId × UInt64) → World × Pool → Prop where
  | missing (hid : s.2.disks[id]? = none) : Turn env buf id s (.err .unplaceable) s
  | full {handle : DiskHandle} (hid : s.2.disks[id]? = some handle) (hroom : ¬HasRoom buf handle) :
      Turn env buf id s (.err (.io .segmentFull)) s
  | failed {handle : DiskHandle} {e : IoError} {w : World} (hid : s.2.disks[id]? = some handle) (hroom : HasRoom buf handle)
      (hwrite : s.1.writeSync env handle.disk (segmentBaseOffset + handle.cursor) buf = (.error e, w)) :
      Turn env buf id s (.err (.io e)) (w, s.2)
  | stored {handle : DiskHandle} {w : World} (hid : s.2.disks[id]? = some handle) (hroom : HasRoom buf handle)
      (hwrite : s.1.writeSync env handle.disk (segmentBaseOffset + handle.cursor) buf = (.ok (), w)) :
      Turn env buf id s (.ok (id, UInt64.ofNat handle.cursor)) (w, s.2.moveCursor id handle (handle.cursor + buf.length))

theorem turn_storeWithin (hbuf : buf ≠ []) (env : Env) (id : DiskId) (s : World × Pool) :
    Turn env buf id s (writeReplica (storeWithin env buf) id s).1 (writeReplica (storeWithin env buf) id s).2 := by
  obtain ⟨w, p⟩ := s
  unfold writeReplica storeWithin
  dsimp only
  cases hid : p.disks[id]? with
  | none => exact .missing hid
  | some handle =>
      dsimp only
      by_cases hroom : HasRoom buf handle
      · rw [if_neg (fun hfull => (not_hasRoom_iff hbuf).mpr hfull hroom)]
        generalize hwrite : w.writeSync env handle.disk (segmentBaseOffset + handle.cursor) buf = out
        obtain ⟨res, w'⟩ := out
        cases res with
        | error e => exact .failed hid hroom hwrite
        | ok u => exact .stored hid hroom hwrite
      · rw [if_pos ((not_hasRoom_iff hbuf).mp hroom)]
        exact .full hid hroom

theorem writeReplica_stored (hbuf : buf ≠ []) {w : World} (hid : s.2.disks[id]? = some handle) (hroom : HasRoom buf handle)
    (hwrite : s.1.writeSync env handle.disk (segmentBaseOffset + handle.cursor) buf = (.ok (), w)) :
    writeReplica (storeWithin env buf) id s =
      (.ok (id, UInt64.ofNat handle.cursor), w, s.2.moveCursor id handle (handle.cursor + buf.length)) := by
  obtain ⟨w₀, p⟩ := s
  have hwrite : w₀.writeSync env handle.disk (segmentBaseOffset + handle.cursor) buf = (.ok (), w) := hwrite
  have hid : p.disks[id]? = some handle := hid
  have hfit : ¬Segment.segmentSizeBytes - handle.cursor < buf.length :=
    fun hfull => (not_hasRoom_iff hbuf).mpr hfull hroom
  simp only [writeReplica, storeWithin, hid, if_neg hfit, hwrite]
  rfl

/-- A turn keeps the cursors inside. -/
theorem Turn.cursorsInside {res : Res PoolError (DiskId × UInt64)} {s' : World × Pool} (h : Turn env buf id s res s')
    (hin : CursorsInside s.2) : CursorsInside s'.2 := by
  cases h with
  | missing hid => exact hin
  | full hid hroom => exact hin
  | failed hid hroom hwrite => exact hin
  | @stored handle w hid hroom hwrite =>
      intro id' handle' hid'
      rw [show (_ : World × Pool).2.disks[id']? = _ from moveCursor_disks s.2 id id' handle _] at hid'
      split at hid'
      · obtain rfl := Option.some.inj hid'
        exact hroom
      · exact hin id' handle' hid'

/-- A disk without room for the buffer has none after a turn either. -/
theorem Turn.overfull {res : Res PoolError (DiskId × UInt64)} {s' : World × Pool} {id' : DiskId}
    (h : Turn env buf id s res s') (hover : ∃ handle, s.2.disks[id']? = some handle ∧ ¬HasRoom buf handle) :
    ∃ handle, s'.2.disks[id']? = some handle ∧ ¬HasRoom buf handle := by
  cases h with
  | missing hid => exact hover
  | full hid hroom => exact hover
  | failed hid hroom hwrite => exact hover
  | @stored handle w hid hroom hwrite =>
      obtain ⟨handle', hid', hover⟩ := hover
      by_cases heq : id = id'
      · subst heq
        rw [hid] at hid'
        obtain rfl := Option.some.inj hid'
        exact absurd hroom hover
      · refine ⟨handle', ?_, hover⟩
        rw [show (_ : World × Pool).2.disks[id']? = _ from moveCursor_disks s.2 id id' handle _, if_neg heq]
        exact hid'

/-! ## The replica loop -/

theorem writeReplicas_of_err {writeOne : World → DiskHandle → Res PoolError Nat × World} {e : PoolError}
    (h : (writeReplica writeOne id s).1 = .err e) : (writeReplicas writeOne (id :: ids) s).1 = .err e :=
  Action.err_of_bind_err h

theorem writeReplicas_of_ok {writeOne : World → DiskHandle → Res PoolError Nat × World} {written : DiskId × UInt64}
    {e : PoolError} (h : (writeReplica writeOne id s).1 = .ok written)
    (hrest : (writeReplicas writeOne ids (writeReplica writeOne id s).2).1 = .err e) :
    (writeReplicas writeOne (id :: ids) s).1 = .err e := by
  have hturn : writeReplica writeOne id s = (.ok written, (writeReplica writeOne id s).2) := Prod.ext h rfl
  rw [show writeReplicas writeOne (id :: ids) s = _ from Action.bind_of_ok hturn]
  exact Action.err_of_bind_err hrest

/-- The loop behind the bound keeps the cursors inside. -/
theorem writeReplicas_cursorsInside (hbuf : buf ≠ []) (hin : CursorsInside s.2) :
    CursorsInside (writeReplicas (storeWithin env buf) ids s).2.2 :=
  keeps_writeReplicas (R := fun a b => CursorsInside a.2 → CursorsInside b.2) (fun _ h => h)
    (fun _ _ _ hab hbc h => hbc (hab h)) (fun id s => (turn_storeWithin hbuf env id s).cursorsInside) ids s hin

/-- Its writes end inside the disk. -/
theorem writeWithin_inside (hbuf : buf ≠ []) (handle : DiskHandle) :
    ∀ x ∈ writeWithin buf handle, x.offset + x.len ≤ diskFileCapacityBytes := by
  intro x hx
  unfold writeWithin at hx
  split at hx
  · cases hx
  · rename_i hfull
    have hroom : HasRoom buf handle := Classical.not_not.mp fun h => hfull ((not_hasRoom_iff hbuf).mp h)
    rw [List.mem_singleton.mp hx]
    show segmentBaseOffset + handle.cursor + buf.length ≤ segmentBaseOffset + Segment.segmentSizeBytes
    unfold HasRoom at hroom
    omega

/-- **It refuses**: one chosen disk without room is enough for an error. -/
theorem writeReplicas_refuses (hbuf : buf ≠ [])
    (hover : ∃ id ∈ ids, ∃ handle, s.2.disks[id]? = some handle ∧ ¬HasRoom buf handle) :
    ∃ e, (writeReplicas (storeWithin env buf) ids s).1 = .err e := by
  induction ids generalizing s with
  | nil =>
      obtain ⟨id, hid, -⟩ := hover
      cases hid
  | cons id ids ih =>
      have hturn := turn_storeWithin hbuf env id s
      generalize hout : writeReplica (storeWithin env buf) id s = out at hturn
      obtain ⟨res, s'⟩ := out
      cases hturn with
      | missing hid => exact ⟨_, writeReplicas_of_err (congrArg Prod.fst hout)⟩
      | full hid hroom => exact ⟨_, writeReplicas_of_err (congrArg Prod.fst hout)⟩
      | failed hid hroom hwrite => exact ⟨_, writeReplicas_of_err (congrArg Prod.fst hout)⟩
      | @stored handle w hid hroom hwrite =>
          obtain ⟨id', hmem, hover⟩ := hover
          rcases List.mem_cons.mp hmem with rfl | hmem
          · obtain ⟨handle', hid', hfull⟩ := hover
            rw [hid] at hid'
            obtain rfl := Option.some.inj hid'
            exact absurd hroom hfull
          · obtain ⟨e, he⟩ := ih ⟨id', hmem, (Turn.stored hid hroom hwrite).overfull hover⟩
            refine ⟨e, writeReplicas_of_ok (congrArg Prod.fst hout) ?_⟩
            rw [hout]
            exact he

/-! ## Extents that fit -/

/-- Each disk the loop reaches is as `room` says; a disk is reached once the device has stored the buffer on those before
    it. -/
def InTurn (room : DiskHandle → Prop) (env : Env) (buf : Bytes) : List DiskId → World × Pool → Prop
  | [],        _ => True
  | id :: ids, s => ∀ handle, s.2.disks[id]? = some handle → room handle ∧
      ∀ w, s.1.writeSync env handle.disk (segmentBaseOffset + handle.cursor) buf = (.ok (), w) →
        InTurn room env buf ids (w, s.2.moveCursor id handle (handle.cursor + buf.length))

/-- There is room for the buffer on each disk the loop reaches. -/
def FitsInTurn (env : Env) (buf : Bytes) (ids : List DiskId) (s : World × Pool) : Prop := InTurn (HasRoom buf) env buf ids s

instance (buf : Bytes) : DecidablePred (HasRoom buf) := fun _ => inferInstanceAs (Decidable (_ ≤ _))

instance InTurn.decidable (room : DiskHandle → Prop) [DecidablePred room] (env : Env) (buf : Bytes) :
    ∀ ids s, Decidable (InTurn room env buf ids s)
  | [], _        => .isTrue trivial
  | id :: ids, s =>
      match hid : s.2.disks[id]? with
      | none => .isTrue (by simp [InTurn, hid])
      | some handle =>
          match hw : s.1.writeSync env handle.disk (segmentBaseOffset + handle.cursor) buf with
          | (.error _, _) => decidable_of_iff (room handle) (by simp [InTurn, hid, hw])
          | (.ok (), w) =>
              have := InTurn.decidable room env buf ids (w, s.2.moveCursor id handle (handle.cursor + buf.length))
              decidable_of_iff (room handle ∧
                InTurn room env buf ids (w, s.2.moveCursor id handle (handle.cursor + buf.length)))
                (by simp [InTurn, hid, hw])

theorem storeExtent_of_hasRoom (hbuf : buf ≠ []) (hroom : HasRoom buf handle) (w : World) :
    storeExtent env buf w handle = storeWithin env buf w handle := by
  have hsmall : segmentBaseOffset + Segment.segmentSizeBytes < 2 ^ 64 := by decide
  have hlen := List.length_pos_iff.mpr hbuf
  unfold storeExtent storeWithin
  rw [if_neg (fun hfull => (not_hasRoom_iff hbuf).mpr hfull hroom)]
  unfold HasRoom at hroom
  rw [if_neg (by omega)]
  rcases w.writeSync env handle.disk (segmentBaseOffset + handle.cursor) buf with ⟨e | u, w'⟩
  · rfl
  · exact if_neg (by omega)

theorem extentWrite_of_hasRoom (hbuf : buf ≠ []) (hroom : HasRoom buf handle) :
    extentWrite buf handle = writeWithin buf handle := by
  have hsmall : segmentBaseOffset + Segment.segmentSizeBytes < 2 ^ 64 := by decide
  unfold extentWrite writeWithin
  rw [if_neg (fun hfull => (not_hasRoom_iff hbuf).mpr hfull hroom)]
  unfold HasRoom at hroom
  rw [if_neg (by omega)]

theorem writeReplica_storeExtent (hbuf : buf ≠ [])
    (hroom : ∀ handle, s.2.disks[id]? = some handle → HasRoom buf handle) :
    writeReplica (storeExtent env buf) id s = writeReplica (storeWithin env buf) id s := by
  obtain ⟨w, p⟩ := s
  unfold writeReplica
  dsimp only
  cases hid : p.disks[id]? with
  | none => rfl
  | some handle => simp only [storeExtent_of_hasRoom hbuf (hroom handle hid)]

/-- The turn comes out the same, bound or no bound. -/
theorem FitsInTurn.head (hbuf : buf ≠ []) (h : FitsInTurn env buf (id :: ids) s) :
    writeReplica (storeExtent env buf) id s = writeReplica (storeWithin env buf) id s :=
  writeReplica_storeExtent hbuf fun handle hid => (h handle hid).1

/-- Where the turn stores the buffer, the rest of the loop fits. -/
theorem FitsInTurn.tail {written : DiskId × UInt64} {s' : World × Pool} (h : FitsInTurn env buf (id :: ids) s)
    (hturn : Turn env buf id s (.ok written) s') : FitsInTurn env buf ids s' := by
  cases hturn with
  | stored hid hroom hwrite => exact (h _ hid).2 _ hwrite

/-- **A rewrite that fits is a loop behind the bound**: it ends the same way. -/
theorem writeReplicas_storeExtent (hbuf : buf ≠ []) (h : FitsInTurn env buf ids s) :
    writeReplicas (storeExtent env buf) ids s = writeReplicas (storeWithin env buf) ids s := by
  induction ids generalizing s with
  | nil => rfl
  | cons id ids ih =>
      have hsame := h.head hbuf
      have hturn := turn_storeWithin hbuf env id s
      generalize hout : writeReplica (storeWithin env buf) id s = out at hturn hsame
      obtain ⟨res, s'⟩ := out
      cases res with
      | ok written =>
          rw [show writeReplicas (storeExtent env buf) (id :: ids) s = _ from Action.bind_of_ok hsame,
            show writeReplicas (storeWithin env buf) (id :: ids) s = _ from Action.bind_of_ok hout]
          exact Action.bind_congr (ih (h.tail hturn))
      | err e =>
          rw [show writeReplicas (storeExtent env buf) (id :: ids) s = _ from Action.bind_of_err hsame,
            show writeReplicas (storeWithin env buf) (id :: ids) s = _ from Action.bind_of_err hout]
      | panic => cases hturn

/-- Where every replica fits, the loops with and without the bound check issue the same writes. -/
theorem replicaWrites_storeExtent (hbuf : buf ≠ []) (h : FitsInTurn env buf ids s) :
    replicaWrites (extentWrite buf) (storeExtent env buf) ids s =
      replicaWrites (writeWithin buf) (storeWithin env buf) ids s := by
  induction ids generalizing s with
  | nil => rfl
  | cons id ids ih =>
      have hsame := h.head hbuf
      have hturn := turn_storeWithin hbuf env id s
      unfold replicaWrites
      rw [hsame]
      generalize writeReplica (storeWithin env buf) id s = out at hturn
      obtain ⟨res, s'⟩ := out
      cases hid : s.2.disks[id]? with
      | none => rfl
      | some handle =>
          dsimp only
          rw [extentWrite_of_hasRoom hbuf (h handle hid).1]
          cases res with
          | ok written => exact congrArg _ (ih (h.tail hturn))
          | err e => rfl
          | panic => rfl

/-- **A rewrite whose writes stay inside fits.** -/
theorem fitsInTurn_of_writes (hbuf : buf ≠ []) (hin : CursorsInside s.2)
    (h : ∀ x ∈ replicaWrites (extentWrite buf) (storeExtent env buf) ids s, x.offset + x.len ≤ diskFileCapacityBytes) :
    FitsInTurn env buf ids s := by
  induction ids generalizing s with
  | nil => trivial
  | cons id ids ih =>
      intro handle hid
      have hsmall : segmentBaseOffset + Segment.segmentSizeBytes < 2 ^ 64 := by decide
      unfold replicaWrites at h
      simp only [hid] at h
      have hroom : HasRoom buf handle := by
        have haddr : ¬2 ^ 64 ≤ segmentBaseOffset + handle.cursor := by
          have := hin id handle hid
          omega
        have hwrite := h ⟨handle.disk, segmentBaseOffset + handle.cursor, buf.length⟩
          (List.mem_append_left _ (by rw [extentWrite, if_neg haddr]; exact List.mem_singleton.mpr rfl))
        have hend : segmentBaseOffset + handle.cursor + buf.length ≤ segmentBaseOffset + Segment.segmentSizeBytes := hwrite
        unfold HasRoom
        omega
      refine ⟨hroom, fun w hwrite => ?_⟩
      have hstored := writeReplica_stored hbuf hid hroom hwrite
      have hsame : writeReplica (storeExtent env buf) id s = writeReplica (storeWithin env buf) id s := by
        refine writeReplica_storeExtent hbuf fun handle' hid' => ?_
        rw [hid] at hid'
        obtain rfl := Option.some.inj hid'
        exact hroom
      have hmoved : CursorsInside (s.2.moveCursor id handle (handle.cursor + buf.length)) := (Turn.stored hid hroom hwrite).cursorsInside hin
      rw [hsame, hstored] at h
      exact ih hmoved fun x hx => h x (List.mem_append_right _ hx)

end Loop

/-! ## Calls -/

/-- The disks a rewrite chooses for a planned content, and the content: none where there is nothing to store. -/
def chosenExtent (env : Env) (inode : InodeId) (p : Pool) : Res PoolError (RedundancyScheme × Bytes) →
    Option (List DiskId × Bytes)
  | .ok (redundancy, content) =>
      if content = [] then none
      else
        match p.place env.ord redundancy (Placement.placementKey inode (UInt64.ofNat (2 ^ 64 - 1))) with
        | .ok ids => some (ids, content)
        | _       => none
  | _ => none

/-- The disks and the bytes of an append, if it is granted. -/
def chosenAppend (inode : InodeId) (payload : Bytes) : Res PoolError (UInt64 × List DiskId) → Option (List DiskId × Bytes)
  | .ok (chunkSeq, ids) => some (ids, Segment.encode (Segment.Record.new inode chunkSeq payload))
  | _                   => none

/-- The disks a call chooses for its data, and the bytes it means to store on each. -/
def chosen (env : Env) (s : World × Pool) : PoolOp → Option (List DiskId × Bytes)
  | .append inode payload    => chosenAppend inode payload (s.2.planAppend env.ord inode)
  | .completeConvert inode   => chosenExtent env inode s.2 (s.2.planCompleteConvert s.1 inode)
  | .write inode offset data => chosenExtent env inode s.2 (s.2.planWrite s.1 inode offset data)
  | _                        => none

/-- A rewrite fits every disk its loop reaches. An append looks for itself. -/
def FitsDisks (env : Env) (s : World × Pool) : PoolOp → Prop
  | .append _ _ => True
  | op          => ∀ ids buf, chosen env s op = some (ids, buf) → FitsInTurn env buf ids s

instance FitsDisks.decidable (env : Env) (s : World × Pool) (op : PoolOp) : Decidable (FitsDisks env s op) :=
  have hchosen : Decidable (∀ ids buf, chosen env s op = some (ids, buf) → FitsInTurn env buf ids s) :=
    match h : chosen env s op with
    | none            => .isTrue (fun _ _ heq => by cases heq)
    | some (ids, buf) =>
        have : Decidable (FitsInTurn env buf ids s) := InTurn.decidable (HasRoom buf) env buf ids s
        decidable_of_iff (FitsInTurn env buf ids s) (by simp)
  match op with
  | .append _ _          => .isTrue trivial
  | .createFile ..       => hchosen
  | .beginConvert _      => hchosen
  | .completeConvert _   => hchosen
  | .write ..            => hchosen
  | .setRedundancy ..    => hchosen
  | .unlink ..           => hchosen
  | .read ..             => hchosen

section Phase

variable {env : Env} {inode : InodeId} {payload buf : Bytes} {ids : List DiskId} {s : World × Pool} {x : PoolM MetaOp}

/-- A data phase that comes down to the loop behind the bound. -/
structure StoresWithin (env : Env) (x : PoolM MetaOp) (s : World × Pool) (buf : Bytes) (ids : List DiskId)
    (issued : List Write) : Prop where
  ne_nil : buf ≠ []
  state : (x s).2 = (writeReplicas (storeWithin env buf) ids s).2
  err : ∀ e, (writeReplicas (storeWithin env buf) ids s).1 = .err e → (x s).1 = .err e
  issued : issued = replicaWrites (writeWithin buf) (storeWithin env buf) ids s

theorem appendPhase_within (h : chosenAppend inode payload (s.2.planAppend env.ord inode) = some (ids, buf)) :
    StoresWithin env (prepareAppend env inode payload) s buf ids
      (appendWrites env inode payload s (s.2.planAppend env.ord inode)) := by
  unfold chosenAppend at h
  split at h
  · rename_i chunkSeq ids' hplan
    obtain ⟨rfl, rfl⟩ := Prod.mk.inj (Option.some.inj h)
    have hread : (Action.reads (fun s => s.2.planAppend env.ord inode) : PoolM _) s = (.ok (chunkSeq, ids'), s) :=
      Action.reads_eq_ok.mpr ⟨hplan, rfl⟩
    refine ⟨Segment.encode_ne_nil _, ?_, ?_, ?_⟩
    · rw [show prepareAppend env inode payload s = _ from Action.bind_of_ok hread, Action.state_returns,
        appendRecord_eq_storeWithin]
    · intro e he
      rw [← appendRecord_eq_storeWithin] at he
      rw [show prepareAppend env inode payload s = _ from Action.bind_of_ok hread]
      exact Action.err_of_bind_err he
    · unfold appendWrites
      rw [hplan]
      dsimp only
      rw [appendRecord_eq_storeWithin]
      rfl
  · cases h

theorem extentPhase_within (plan : World → Pool → Res PoolError (RedundancyScheme × Bytes)) {mkOp : List Extent → MetaOp}
    (h : chosenExtent env inode s.2 (plan s.1 s.2) = some (ids, buf)) (hfits : FitsInTurn env buf ids s) :
    StoresWithin env (prepareExtents env inode plan mkOp) s buf ids (extentWrites env inode s (plan s.1 s.2)) := by
  unfold chosenExtent at h
  split at h
  · rename_i redundancy content hplan
    split at h
    · cases h
    · rename_i hne
      split at h
      · rename_i ids' hplace
        obtain ⟨rfl, rfl⟩ := Prod.mk.inj (Option.some.inj h)
        have hread : (Action.reads (fun s => plan s.1 s.2) : PoolM _) s = (.ok (redundancy, content), s) :=
          Action.reads_eq_ok.mpr ⟨hplan, rfl⟩
        have hids : (Action.reads (fun s => s.2.place env.ord redundancy
            (Placement.placementKey inode (UInt64.ofNat (2 ^ 64 - 1)))) : PoolM _) s = (.ok ids', s) :=
          Action.reads_eq_ok.mpr ⟨hplace, rfl⟩
        refine ⟨hne, ?_, ?_, ?_⟩
        · rw [show prepareExtents env inode plan mkOp s = _ from Action.bind_of_ok hread, Action.state_returns]
          unfold writeWholeFileExtent
          rw [if_neg hne, Action.bind_of_ok hids, Action.state_returns, writeReplicas_storeExtent hne hfits]
        · intro e he
          rw [← writeReplicas_storeExtent hne hfits] at he
          have hextent : (writeWholeFileExtent env inode redundancy 0 content s).1 = .err e := by
            unfold writeWholeFileExtent
            rw [if_neg hne, Action.bind_of_ok hids]
            exact Action.err_of_bind_err he
          rw [show prepareExtents env inode plan mkOp s = _ from Action.bind_of_ok hread]
          exact Action.err_of_bind_err hextent
        · unfold extentWrites
          rw [hplan]
          dsimp only
          rw [if_neg hne, hplace]
          exact replicaWrites_storeExtent hne hfits
      · cases h
  · cases h

theorem appendPhase_of_none (h : chosenAppend inode payload (s.2.planAppend env.ord inode) = none) :
    (prepareAppend env inode payload s).2 = s ∧ appendWrites env inode payload s (s.2.planAppend env.ord inode) = [] := by
  cases hplan : s.2.planAppend env.ord inode with
  | ok planned =>
      rw [hplan] at h
      cases h
  | err e =>
      have hfail : ∀ a, s.2.planAppend env.ord inode ≠ .ok a := fun a heq => by cases hplan.symm.trans heq
      exact ⟨Action.state_bind_of_fail hfail, rfl⟩
  | panic =>
      have hfail : ∀ a, s.2.planAppend env.ord inode ≠ .ok a := fun a heq => by cases hplan.symm.trans heq
      exact ⟨Action.state_bind_of_fail hfail, rfl⟩

theorem extentPhase_of_none (plan : World → Pool → Res PoolError (RedundancyScheme × Bytes)) {mkOp : List Extent → MetaOp}
    (h : chosenExtent env inode s.2 (plan s.1 s.2) = none) :
    (prepareExtents env inode plan mkOp s).2 = s ∧ extentWrites env inode s (plan s.1 s.2) = [] := by
  cases hplan : plan s.1 s.2 with
  | ok planned =>
      obtain ⟨redundancy, content⟩ := planned
      rw [hplan] at h
      have hread : (Action.reads (fun s => plan s.1 s.2) : PoolM _) s = (.ok (redundancy, content), s) :=
        Action.reads_eq_ok.mpr ⟨hplan, rfl⟩
      rw [show prepareExtents env inode plan mkOp s = _ from Action.bind_of_ok hread, Action.state_returns]
      unfold chosenExtent at h
      unfold extentWrites writeWholeFileExtent
      by_cases hempty : content = []
      · rw [if_pos hempty]
        exact ⟨rfl, if_pos hempty⟩
      · dsimp only at h ⊢
        rw [if_neg hempty] at h
        rw [if_neg hempty, if_neg hempty]
        cases hplace : s.2.place env.ord redundancy (Placement.placementKey inode (UInt64.ofNat (2 ^ 64 - 1))) with
        | ok ids =>
            rw [hplace] at h
            cases h
        | err e => exact ⟨Action.state_bind_of_fail fun ids heq => (by cases hplace.symm.trans heq), rfl⟩
        | panic => exact ⟨Action.state_bind_of_fail fun ids heq => (by cases hplace.symm.trans heq), rfl⟩
  | err e =>
      have hfail : ∀ a, plan s.1 s.2 ≠ .ok a := fun a heq => by cases hplan.symm.trans heq
      exact ⟨Action.state_bind_of_fail hfail, rfl⟩
  | panic =>
      have hfail : ∀ a, plan s.1 s.2 ≠ .ok a := fun a heq => by cases hplan.symm.trans heq
      exact ⟨Action.state_bind_of_fail hfail, rfl⟩

/-- A call that chooses no disks issues no writes and stores nothing. -/
theorem phase_of_none {op : PoolOp} (hop : dataPhase env op = some x) (h : chosen env s op = none) :
    (x s).2 = s ∧ dataWrites env s op = [] := by
  cases dataPhase_cases hop with
  | append =>
      exact appendPhase_of_none h
  | @completeConvert inode =>
      exact extentPhase_of_none (fun w p => p.planCompleteConvert w inode) h
  | @write inode offset data =>
      exact extentPhase_of_none (fun w p => p.planWrite w inode offset data) h

/-- The writes of a rewrite are those of its loop over the disks chosen. -/
theorem extentWrites_of_chosen {plan : Res PoolError (RedundancyScheme × Bytes)}
    (h : chosenExtent env inode s.2 plan = some (ids, buf)) :
    buf ≠ [] ∧ extentWrites env inode s plan = replicaWrites (extentWrite buf) (storeExtent env buf) ids s := by
  unfold chosenExtent at h
  split at h
  · split at h
    · cases h
    · rename_i hne
      split at h
      · rename_i hplace
        obtain ⟨rfl, rfl⟩ := Prod.mk.inj (Option.some.inj h)
        refine ⟨hne, ?_⟩
        unfold extentWrites
        dsimp only
        rw [if_neg hne, hplace]
      · cases h
  · cases h

/-- **A data phase whose content fits is the loop behind the bound.** -/
theorem phase_of_chosen {op : PoolOp} (hop : dataPhase env op = some x) (h : chosen env s op = some (ids, buf))
    (hfits : FitsDisks env s op) : StoresWithin env x s buf ids (dataWrites env s op) := by
  cases dataPhase_cases hop with
  | append =>
      exact appendPhase_within h
  | @completeConvert inode =>
      exact extentPhase_within (fun w p => p.planCompleteConvert w inode) h (hfits ids buf h)
  | @write inode offset data =>
      exact extentPhase_within (fun w p => p.planWrite w inode offset data) h (hfits ids buf h)

end Phase

theorem dataPhase_eq_none {env : Env} {op : PoolOp} (hop : dataPhase env op = none) (s : World × Pool) :
    chosen env s op = none ∧ dataWrites env s op = [] := by
  cases op with
  | append inode payload => cases hop
  | completeConvert inode => cases hop
  | write inode offset data => cases hop
  | createFile parent name redundancy uid gid unixMode now => exact ⟨rfl, rfl⟩
  | beginConvert inode => exact ⟨rfl, rfl⟩
  | setRedundancy inode scheme => exact ⟨rfl, rfl⟩
  | unlink parent name => exact ⟨rfl, rfl⟩
  | read inode offset len => exact ⟨rfl, rfl⟩

/-- A call and the state it finds. -/
structure PoolCall where
  env : Env
  world : World
  pool : Pool
  op : PoolOp

namespace PoolCall

/-- What the call returns, and the state it leaves. -/
def outcome (c : PoolCall) : Res PoolError PoolVal × World × Pool := step c.env c.op (c.world, c.pool)

/-- **Allocation stays inside the disks**: the call leaves every cursor in its region or at its end, none of its data
    writes ends past the end of a disk, and it returns an error if there is a disk it chose but has no room on. -/
structure StaysInside (c : PoolCall) : Prop where
  cursors : c.outcome.1 ≠ .panic → CursorsInside c.outcome.2.2
  writes : ∀ x ∈ dataWrites c.env (c.world, c.pool) c.op, x.offset + x.len ≤ diskFileCapacityBytes
  refused : ∀ ids buf, chosen c.env (c.world, c.pool) c.op = some (ids, buf) →
    (∃ id ∈ ids, ∃ handle, c.pool.disks[id]? = some handle ∧ ¬HasRoom buf handle) → ∃ e, c.outcome.1 = .err e

/-- The call finds room for what it stores. -/
def Fits (c : PoolCall) : Prop := FitsDisks c.env (c.world, c.pool) c.op

variable {c : PoolCall}

theorem fits_of_staysInside (hin : CursorsInside c.pool) (h : c.StaysInside) : c.Fits := by
  obtain ⟨env, w, p, op⟩ := c
  have hrewrite : ∀ inode plan, (∀ x ∈ extentWrites env inode (w, p) plan, x.offset + x.len ≤ diskFileCapacityBytes) →
      ∀ ids buf, chosenExtent env inode p plan = some (ids, buf) → FitsInTurn env buf ids (w, p) := by
    intro inode plan hwrites ids buf hchosen
    obtain ⟨hne, heq⟩ := extentWrites_of_chosen (s := (w, p)) hchosen
    rw [heq] at hwrites
    exact fitsInTurn_of_writes hne hin hwrites
  cases op with
  | append inode payload => trivial
  | completeConvert inode => exact hrewrite inode _ h.writes
  | write inode offset data => exact hrewrite inode _ h.writes
  | createFile parent name redundancy uid gid unixMode now => exact fun ids buf hchosen => by cases hchosen
  | beginConvert inode => exact fun ids buf hchosen => by cases hchosen
  | setRedundancy inode scheme => exact fun ids buf hchosen => by cases hchosen
  | unlink parent name => exact fun ids buf hchosen => by cases hchosen
  | read inode offset len => exact fun ids buf hchosen => by cases hchosen

theorem staysInside_of_fits (hin : CursorsInside c.pool) (h : c.Fits) : c.StaysInside := by
  obtain ⟨env, w, p, op⟩ := c
  refine ⟨fun hres => ?_, ?_, ?_⟩
  · -- only the data phase moves cursors
    refine step_rule (I := fun _ p => CursorsInside p) hin ?_ (fun _ _ _ => hin) (fun _ _ _ _ _ _ _ h _ _ => h)
      (show step env op (w, p) = (_, _, _) from rfl) hres
    intro x hop
    cases hchosen : chosen env (w, p) op with
    | none =>
        rw [(phase_of_none hop hchosen).1]
        exact hin
    | some target =>
        have hphase := phase_of_chosen hop hchosen h
        rw [hphase.state]
        exact writeReplicas_cursorsInside hphase.ne_nil hin
  · cases hop : dataPhase env op with
    | none =>
        rw [(dataPhase_eq_none hop (w, p)).2]
        exact List.forall_mem_nil _
    | some x =>
        cases hchosen : chosen env (w, p) op with
        | none =>
            rw [(phase_of_none hop hchosen).2]
            exact List.forall_mem_nil _
        | some target =>
            have hphase := phase_of_chosen hop hchosen h
            rw [hphase.issued]
            exact forall_replicaWrites (writeWithin_inside hphase.ne_nil)
  · intro ids buf hchosen hover
    cases hop : dataPhase env op with
    | none =>
        rw [(dataPhase_eq_none hop (w, p)).1] at hchosen
        cases hchosen
    | some x =>
        have hphase := phase_of_chosen hop hchosen h
        obtain ⟨e, he⟩ := writeReplicas_refuses (s := (w, p)) hphase.ne_nil hover
        refine ⟨e, ?_⟩
        rw [outcome, step_of_dataPhase hop]
        exact Action.err_of_bind_err (Action.err_of_bind_err (hphase.err e he))

end PoolCall

/-! ## Runs -/

/-- The pool call of a deed, if it is one. -/
def Deed.poolCalls : Deed → World × Option Pool → List PoolCall
  | .call env op, (w, some p) => [⟨env, w, p, op⟩]
  | _, _                      => []

/-- Every pool call of a run. -/
def poolCallsOf : List Deed → World × Option Pool → List PoolCall
  | [],      _ => []
  | d :: ds, s => d.poolCalls s ++ poolCallsOf ds (d.exec s)

/-- The cursors of the pool at hand, if there is one, are inside. -/
def AllInside (s : World × Option Pool) : Prop := ∀ p, s.2 = some p → CursorsInside p

/-- A freshly formatted pool's cursors are at the start of their regions. -/
theorem cursorsInside_format {env : Env} {w₀ w : World} {n : Nat} {classes : List DiskClass} {now : UInt64} {p : Pool}
    (h : formatWithClasses env w₀ n classes now = (.ok (), w, some p)) : CursorsInside p := by
  obtain ⟨-, -, s, -, happly⟩ := formatWithClasses_eq_ok h
  obtain ⟨s', -, rfl⟩ := applyMeta_eq_ok happly
  intro id handle hid
  have hcursor := (handlesOf_eq_some (show (handlesOf n (fun _ => 0))[id]? = some handle from hid)).2.2
  rw [hcursor]
  exact Nat.zero_le _

theorem AllInside.exec {d : Deed} {s : World × Option Pool} (hreopen : ∀ n classes, d ≠ .openPool n classes)
    (hin : AllInside s)
    (hkeeps : ∀ c ∈ d.poolCalls s, CursorsInside c.pool → c.outcome.1 ≠ .panic → CursorsInside c.outcome.2.2) :
    AllInside (d.exec s) := by
  obtain ⟨w, po⟩ := s
  intro p hp
  cases d with
  | format env n classes now =>
      have hformat := format_of_some (Prod.ext rfl hp : (formatWithClasses env w n classes now).2 = (_, some p))
      exact cursorsInside_format hformat
  | openPool n classes => exact absurd rfl (hreopen n classes)
  | call env op =>
      cases po with
      | none => cases hp
      | some p₀ =>
          have hcall := hkeeps ⟨env, w, p₀, op⟩ (List.mem_singleton.mpr rfl) (hin p₀ rfl)
          simp only [Deed.exec] at hp
          unfold PoolCall.outcome at hcall
          generalize step env op (w, p₀) = out at hp hcall
          obtain ⟨res, w', p'⟩ := out
          cases res with
          | ok v =>
              obtain rfl := Option.some.inj hp
              exact hcall (by simp)
          | err e =>
              obtain rfl := Option.some.inj hp
              exact hcall (by simp)
          | panic => cases hp

/-- **Cursors stay inside for as long as the calls keep them there.** -/
theorem poolCalls_inside {ds : List Deed} {s : World × Option Pool} (hreopen : ∀ n classes, Deed.openPool n classes ∉ ds)
    (hin : AllInside s)
    (hkeeps : ∀ c ∈ poolCallsOf ds s, CursorsInside c.pool → c.outcome.1 ≠ .panic → CursorsInside c.outcome.2.2) :
    ∀ c ∈ poolCallsOf ds s, CursorsInside c.pool := by
  induction ds generalizing s with
  | nil => simp [poolCallsOf]
  | cons d ds ih =>
      intro c hc
      rcases List.mem_append.mp hc with hc | hc
      · unfold Deed.poolCalls at hc
        split at hc
        · obtain rfl := List.mem_singleton.mp hc
          exact hin _ rfl
        · cases hc
      · have hnext := hin.exec (fun n classes heq => hreopen n classes (heq ▸ List.mem_cons_self))
          (fun c hc => hkeeps c (List.mem_append_left _ hc))
        exact ih (fun n classes hmem => hreopen n classes (List.mem_cons_of_mem _ hmem)) hnext
          (fun c hc => hkeeps c (List.mem_append_right _ hc)) c hc

/-- **Where file data stays inside its disk**: in a run without reopens, every call keeps allocation inside the disks
    exactly if every rewrite finds room on each disk that its loop reaches. -/
theorem data_inside_iff (ds : List Deed) (w : World) (hreopen : ∀ n classes, Deed.openPool n classes ∉ ds) :
    (∀ c ∈ poolCallsOf ds (w, none), c.StaysInside) ↔ ∀ c ∈ poolCallsOf ds (w, none), c.Fits := by
  have hnone : AllInside (w, none) := fun p hp => by cases hp
  constructor
  · intro h c hc
    have hin := poolCalls_inside hreopen hnone (fun c hc _ => (h c hc).cursors)
    exact PoolCall.fits_of_staysInside (hin c hc) (h c hc)
  · intro h c hc
    have hin := poolCalls_inside hreopen hnone
      (fun c hc hin => (PoolCall.staysInside_of_fits hin (h c hc)).cursors)
    exact PoolCall.staysInside_of_fits (hin c hc) (h c hc)

instance PoolCall.Fits.decidable (c : PoolCall) : Decidable c.Fits := FitsDisks.decidable c.env (c.world, c.pool) c.op

/-- A file on two disks is created, appended to, converted and overwritten. -/
def rewriteDeeds : List Deed :=
  .format (Env.healthy MetaStore.listOrder) 2 [.hdd, .ssd] 0 ::
    ([.createFile rootInode "a" (.replicated [.anyOfClass none, .anyOfClass none]) 0 0 0o100644 0, .append 2 [1, 2, 3],
      .beginConvert 2, .completeConvert 2, .write 2 2 [9, 9]] : List PoolOp).map (.call (Env.healthy MetaStore.listOrder))

/-- The theorem at that run: its two rewrites find room. -/
theorem data_inside_rewrites : (poolCallsOf rewriteDeeds (World.blank 0, none)).length = 5 ∧
    (∀ c ∈ poolCallsOf rewriteDeeds (World.blank 0, none), c.outcome.1.isOk) ∧
    ∀ c ∈ poolCallsOf rewriteDeeds (World.blank 0, none), c.StaysInside :=
  ⟨by decide +kernel, by decide +kernel,
    (data_inside_iff rewriteDeeds (World.blank 0) (fun n classes => by simp [rewriteDeeds])).mpr (by decide +kernel)⟩

/-! ## A write past the end -/

theorem poolCallsOf_append (ds ds' : List Deed) (s : World × Option Pool) :
    poolCallsOf (ds ++ ds') s = poolCallsOf ds s ++ poolCallsOf ds' (ds.foldl (fun s d => d.exec s) s) := by
  induction ds generalizing s with
  | nil => rfl
  | cons d ds ih =>
      rw [List.cons_append, poolCallsOf, poolCallsOf, ih, List.append_assoc]
      rfl

/-- Operations that are played out without a panic leave the pool they are played out to. -/
theorem exec_play {env : Env} {ops : List PoolOp} {s : World × Pool} (hok : (play env ops s).1.all Event.survived = true) :
    (ops.map (Deed.call env)).foldl (fun s d => d.exec s) (s.1, some s.2) =
      ((play env ops s).2.1, some (play env ops s).2.2) := by
  induction ops generalizing s with
  | nil => rfl
  | cons op ops ih =>
      simp only [Pool.play, List.all_cons, Bool.and_eq_true] at hok
      have hexec : (Deed.call env op).exec (s.1, some s.2) = ((step env op s).2.1, some (step env op s).2.2) := by
        refine Deed.exec_call rfl fun hpanic => ?_
        have hpanic : (step env op s).1 = .panic := hpanic
        rw [hpanic] at hok
        exact absurd hok.1 (by simp [Event.survived])
      rw [List.map_cons, List.foldl_cons, hexec]
      exact ih hok.2

/-- A run that ends in a write of one byte at the end of the segment. -/
def pastEndDeeds : List Deed :=
  .format (Env.healthy MetaStore.listOrder) 1 [.hdd] 0 ::
    (sampleOps.map (Deed.call (Env.healthy MetaStore.listOrder)) ++
      [.call (Env.healthy MetaStore.listOrder) (.write 2 (UInt64.ofNat Segment.segmentSizeBytes) [7])])

/-- Its last call. -/
def pastEnd : PoolCall :=
  ⟨Env.healthy MetaStore.listOrder, sampleSession.2.1, sampleSession.2.2, .write 2 (UInt64.ofNat Segment.segmentSizeBytes) [7]⟩

theorem pastEnd_mem : pastEnd ∈ poolCallsOf pastEndDeeds (World.blank 0, none) := by
  have hformat : (Deed.format (Env.healthy MetaStore.listOrder) 1 [.hdd] 0).exec (World.blank 0, none) =
      (onDisk.1, some onDisk.2) := rfl
  have hplay : play (Env.healthy MetaStore.listOrder) sampleOps onDisk = sampleSession := rfl
  have hexec := exec_play (s := onDisk) (show (play (Env.healthy MetaStore.listOrder) sampleOps onDisk).1.all
    Event.survived = true by decide +kernel)
  rw [hplay] at hexec
  refine List.mem_append_right _ ?_
  rw [hformat, poolCallsOf_append, hexec]
  exact List.mem_append_right _ (List.mem_append_left _ (List.mem_singleton.mpr rfl))

/-- A write that ends past the end of the segment does not fit, wherever it goes. -/
theorem not_fits_of_write {ord : IterOrder} {w : World} {p : Pool} {inode : InodeId} {offset : UInt64} {data content : Bytes}
    {rec : InodeRecord} {id : DiskId} {ids : List DiskId} (hfind : p.findInode inode = .ok rec) (hmode : rec.mode = .writable)
    (hread : p.readFullContent w rec = .ok content) (hstop : offset.toNat + data.length < 2 ^ 63)
    (hover : Segment.segmentSizeBytes < offset.toNat + data.length)
    (hplace : p.place ord rec.redundancy (Placement.placementKey inode (UInt64.ofNat (2 ^ 64 - 1))) = .ok (id :: ids))
    (hid : (p.disks[id]?).isSome) : ¬FitsDisks (Env.healthy ord) (w, p) (.write inode offset data) := by
  intro hfits
  obtain ⟨handle, hid⟩ := Option.isSome_iff_exists.mp hid
  have hplan := planWrite_of_content hfind hmode hread offset data
  rw [if_neg (not_endOverflows hstop)] at hplan
  have hlen : Segment.segmentSizeBytes < (overwrite content offset.toNat data).length := by
    rw [length_overwrite]
    exact Nat.lt_of_lt_of_le hover (Nat.le_max_right _ _)
  have hne : overwrite content offset.toNat data ≠ [] := List.ne_nil_of_length_pos (Nat.zero_lt_of_lt hlen)
  have hchosen : chosenExtent (Env.healthy ord) inode p (p.planWrite w inode offset data) =
      some (id :: ids, overwrite content offset.toNat data) := by
    rw [hplan]
    unfold chosenExtent
    dsimp only
    rw [if_neg hne, show (Env.healthy ord).ord = ord from rfl, hplace]
  have hroom : HasRoom (overwrite content offset.toNat data) handle := (hfits _ _ hchosen handle hid).1
  unfold HasRoom at hroom
  omega

/-- What can be checked of the state the last call finds. -/
theorem finds_of_check {w : World} {p : Pool} {inode : InodeId} {content : Bytes}
    (h : (match p.findInode inode with
      | .ok rec => decide (rec.mode = .writable) && decide (p.readFullContent w rec = .ok content) &&
          decide (p.place MetaStore.listOrder rec.redundancy (Placement.placementKey inode (UInt64.ofNat (2 ^ 64 - 1))) =
            .ok [diskId 0])
      | _       => false) = true) :
    ∃ rec, p.findInode inode = .ok rec ∧ rec.mode = .writable ∧ p.readFullContent w rec = .ok content ∧
      p.place MetaStore.listOrder rec.redundancy (Placement.placementKey inode (UInt64.ofNat (2 ^ 64 - 1))) = .ok [diskId 0] := by
  split at h
  · rename_i rec hrec
    simp only [Bool.and_eq_true, decide_eq_true_eq] at h
    exact ⟨rec, hrec, h.1.1, h.1.2, h.2⟩
  · cases h

theorem pastEnd_not_fits : ¬pastEnd.Fits := by
  have hcheck : ∃ rec, sampleSession.2.2.findInode 2 = .ok rec ∧ rec.mode = .writable ∧
      sampleSession.2.2.readFullContent sampleSession.2.1 rec = .ok [1, 2, 9, 9] ∧
      sampleSession.2.2.place MetaStore.listOrder rec.redundancy (Placement.placementKey 2 (UInt64.ofNat (2 ^ 64 - 1))) =
        .ok [diskId 0] := finds_of_check (by decide +kernel)
  have hid : (sampleSession.2.2.disks[diskId 0]?).isSome := by decide +kernel
  unfold PoolCall.Fits pastEnd
  dsimp only
  generalize sampleSession.2.1 = w at hcheck ⊢
  generalize sampleSession.2.2 = p at hcheck hid ⊢
  obtain ⟨rec, hfind, hmode, hread, hplace⟩ := hcheck
  exact not_fits_of_write hfind hmode hread (by decide) (by decide) hplace hid

/-- Four bytes grow by a write at the end of the segment: it is stored past the end of the disk. -/
theorem write_past_end : ¬∀ c ∈ poolCallsOf pastEndDeeds (World.blank 0, none), c.StaysInside := by
  intro h
  have hreopen : ∀ n classes, Deed.openPool n classes ∉ pastEndDeeds := by
    intro n classes
    simp [pastEndDeeds]
  have hcursors := poolCalls_inside hreopen (fun p hp => by cases hp) (fun c hc _ => (h c hc).cursors) pastEnd pastEnd_mem
  exact pastEnd_not_fits (PoolCall.fits_of_staysInside hcursors (h pastEnd pastEnd_mem))

end Tartine.Pool
