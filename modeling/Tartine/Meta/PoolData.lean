import Tartine.Meta.PoolRun

/-!
# `Meta.PoolData` — bytes of the data region, and what writing leaves of them

Chunk records and extents share each disk's data region through one cursor, and the metadata log lives below it on the
same disk. What makes files survive each other is one relation: `Retains a b` says that whatever could be read below a
disk's cursor in `a` can still be read in `b`. Every data phase has it, whatever fails and wherever it stops, and so
does every metadata operation whose frame fits the log's region.

* `Stored.mono` — a replica stays where it was, with its bytes;
* `keeps_replicas` — the replica loop retains everything below the cursors, however it ends;
* `stored_writeReplicas` — and if it succeeds, every replica it reports is stored;
* `retains_applyMeta` — a metadata operation retains everything.
-/

namespace Tartine.Pool

open Basis

/-! ## Handles and what lies below their cursors -/

/-- Every handle is under the id of its own disk, so different ids write to different disks. -/
def HandlesOk (p : Pool) : Prop := ∀ (id : DiskId) (h : DiskHandle), p.disks[id]? = some h → id = diskId h.disk

/-- What a fresh set of handles holds. -/
theorem handlesOf_eq_some {n : Nat} {cursor : Nat → Nat} {id : DiskId} {h : DiskHandle}
    (hid : (handlesOf n cursor)[id]? = some h) : id = diskId h.disk ∧ h.disk < n ∧ h.cursor = cursor h.disk := by
  unfold handlesOf at hid
  induction n with
  | zero => simp at hid
  | succ n ih =>
      rw [List.range_succ, List.foldl_append, List.foldl_cons, List.foldl_nil, Std.ExtTreeMap.getElem?_insert] at hid
      simp only [Std.LawfulEqCmp.compare_eq_iff_eq] at hid
      split at hid
      · rename_i hsame
        obtain rfl := Option.some.inj hid
        exact ⟨hsame.symm, Nat.lt_succ_self n, rfl⟩
      · obtain ⟨hdisk, hlt, hcur⟩ := ih hid
        exact ⟨hdisk, Nat.lt_succ_of_lt hlt, hcur⟩

/-- The handles of a pool depend on its disks and their cursors only. -/
theorem handlesOf_cursor (n : Nat) (cursor cursor' : Nat → Nat) (id : DiskId) :
    (handlesOf n cursor)[id]? = ((handlesOf n cursor')[id]?).map (fun h => ⟨h.disk, cursor h.disk⟩) := by
  unfold handlesOf
  induction n with
  | zero => simp
  | succ n ih =>
      rw [List.range_succ, List.foldl_append, List.foldl_append, List.foldl_cons, List.foldl_cons, List.foldl_nil,
        List.foldl_nil, Std.ExtTreeMap.getElem?_insert, Std.ExtTreeMap.getElem?_insert]
      split
      · rfl
      · exact ih

/-- Everything below the cursors of `a` reads the same in `b`; disks stay, cursors only grow. -/
def Retains (a b : World × Pool) : Prop :=
  ∀ (id : DiskId) (h : DiskHandle), a.2.disks[id]? = some h → ∃ h' : DiskHandle, b.2.disks[id]? = some h' ∧
    h'.disk = h.disk ∧ h.cursor ≤ h'.cursor ∧
    ∀ off n bs, segmentBaseOffset ≤ off → off + n ≤ segmentBaseOffset + h.cursor →
      (a.1.disk h.disk).readAt off n = some bs → (b.1.disk h.disk).readAt off n = some bs

theorem retains_refl (a : World × Pool) : Retains a a :=
  fun _ h hid => ⟨h, hid, rfl, Nat.le_refl _, fun _ _ _ _ _ hread => hread⟩

theorem Retains.trans {a b c : World × Pool} (hab : Retains a b) (hbc : Retains b c) : Retains a c := by
  intro id h hid
  obtain ⟨h₁, hid₁, hdisk₁, hcur₁, hread₁⟩ := hab id h hid
  obtain ⟨h₂, hid₂, hdisk₂, hcur₂, hread₂⟩ := hbc id h₁ hid₁
  refine ⟨h₂, hid₂, hdisk₂.trans hdisk₁, by omega, ?_⟩
  intro off n bs hoff hend hread
  rw [← hdisk₁]
  refine hread₂ off n bs hoff (by omega) ?_
  rw [hdisk₁]
  exact hread₁ off n bs hoff hend hread

/-- A replica: `bytes` lie `headerLen` past its offset, below the cursor of its disk. -/
def Stored (a : World × Pool) (headerLen : Nat) (bytes : Bytes) (r : DiskId × UInt64) : Prop :=
  ∃ h : DiskHandle, a.2.disks[r.1]? = some h ∧ r.2.toNat + headerLen + bytes.length ≤ h.cursor ∧
    segmentBaseOffset + r.2.toNat + headerLen < 2 ^ 64 ∧
    (a.1.disk h.disk).readAt (segmentBaseOffset + r.2.toNat + headerLen) bytes.length = some bytes

theorem Stored.mono {a b : World × Pool} {headerLen : Nat} {bytes : Bytes} {r : DiskId × UInt64}
    (hs : Stored a headerLen bytes r) (hab : Retains a b) : Stored b headerLen bytes r := by
  obtain ⟨h, hid, hend, haddr, hread⟩ := hs
  obtain ⟨h', hid', hdisk, hcur, hkeep⟩ := hab _ h hid
  refine ⟨h', hid', by omega, haddr, ?_⟩
  rw [hdisk]
  exact hkeep _ _ _ (by omega) (by omega) hread

/-- Reading a list of replicas returns their bytes. -/
theorem readReplicated_of_stored {w : World} {p : Pool} {headerLen : Nat} {bytes : Bytes}
    {replicas : List (DiskId × UInt64)} (hne : replicas ≠ []) (hs : ∀ r ∈ replicas, Stored (w, p) headerLen bytes r) :
    p.readReplicated w replicas headerLen bytes.length = .ok bytes := by
  cases replicas with
  | nil => exact absurd rfl hne
  | cons r rs =>
      obtain ⟨h, hid, -, haddr, hread⟩ := hs r List.mem_cons_self
      have hget : p.disks[r.1]? = some h := hid
      unfold readReplicated
      simp only [hget]
      rw [if_neg (by omega)]
      rw [show (w.disk h.disk).readAt _ _ = some bytes from hread]

/-- Whatever a read of replicas returns, it returns as many bytes as asked for. -/
theorem length_readReplicated {w : World} {p : Pool} {replicas : List (DiskId × UInt64)} {headerLen len : Nat}
    {bytes : Bytes} (h : p.readReplicated w replicas headerLen len = .ok bytes) : bytes.length = len := by
  unfold readReplicated at h
  split at h
  · cases h
  · split at h
    · cases h
    · split at h
      · cases h
      · split at h
        · cases h
        · rename_i hread
          obtain rfl := Res.ok.inj h
          exact (FileDisk.length_of_readAt hread).1

/-! ## Writing at a cursor -/

/-- What writing `buf` at a handle's cursor does, however it ends: some of the caller's bytes inside the target range,
    nothing anywhere else; and if it succeeded, all of `buf`, with the cursor past it. -/
def WritesAtCursor (headerLen : Nat) (buf : Bytes) (writeOne : World → DiskHandle → Res PoolError Nat × World) : Prop :=
  ∀ w h r w', writeOne w h = (r, w') → ∃ left,
    w'.disk h.disk = (w.disk h.disk).writeAt (segmentBaseOffset + h.cursor) left ∧
    (∀ x, x ≠ h.disk → w'.disk x = w.disk x) ∧
    ∀ c, r = .ok c → left = buf ∧ c = h.cursor + buf.length ∧ segmentBaseOffset + h.cursor + headerLen < 2 ^ 64

/-- A chunk record, as one durable write behind a bound. -/
theorem appendRecord_eq (env : Env) (record : Segment.Record) (w : World) (h : DiskHandle) :
    appendRecord env record w h =
      if Segment.segmentSizeBytes - h.cursor < (Segment.encode record).length then (.err (.io .segmentFull), w)
      else
        match w.writeSync env h.disk (segmentBaseOffset + h.cursor) (Segment.encode record) with
        | (.error e, w) => (.err (.io e), w)
        | (.ok (), w)   => (.ok (h.cursor + (Segment.encode record).length), w) := by
  unfold appendRecord Segment.SegmentWriter.append Segment.SegmentWriter.sync Segment.SegmentWriter.remaining
    Segment.SegmentWriter.resume World.writeSync
  dsimp only
  by_cases hroom : Segment.segmentSizeBytes - h.cursor < (Segment.encode record).length
  · simp only [if_pos hroom]
  · simp only [if_neg hroom]
    cases w.writeAt env h.disk (segmentBaseOffset + h.cursor) (Segment.encode record) with
    | mk r w₁ =>
        cases r with
        | error e => rfl
        | ok u =>
            rcases hsync : w₁.sync env h.disk with ⟨_ | u₂, w₂⟩
            · simp only [hsync]
            · simp only [hsync]

theorem appendRecord_writes (env : Env) (record : Segment.Record) :
    WritesAtCursor Segment.headerLen (Segment.encode record) (appendRecord env record) := by
  intro w h r w' hwrite
  rw [appendRecord_eq] at hwrite
  split at hwrite
  · obtain ⟨rfl, rfl⟩ := Prod.mk.inj hwrite
    exact ⟨[], by rw [FileDisk.writeAt_nil], fun _ _ => rfl, fun c hc => by cases hc⟩
  · rename_i hroom
    have hfit : h.cursor + (Segment.encode record).length ≤ Segment.segmentSizeBytes := by
      rw [Segment.length_encode] at hroom ⊢
      unfold Segment.headerLen at hroom ⊢
      omega
    rcases World.writeSync_cases env w h.disk (segmentBaseOffset + h.cursor) (Segment.encode record) with
      ⟨k, hw⟩ | ⟨left, k, -, hw⟩
    · rw [hw] at hwrite
      obtain ⟨rfl, rfl⟩ := Prod.mk.inj hwrite
      refine ⟨_, World.setDisk_self, fun x hx => World.setDisk_of_ne hx, ?_⟩
      intro c hc
      obtain rfl := Res.ok.inj hc
      refine ⟨rfl, rfl, ?_⟩
      have hsmall : segmentBaseOffset + Segment.segmentSizeBytes < 2 ^ 64 := by decide
      rw [Segment.length_encode] at hfit
      omega
    · rw [hw] at hwrite
      obtain ⟨rfl, rfl⟩ := Prod.mk.inj hwrite
      exact ⟨left, World.setDisk_self, fun x hx => World.setDisk_of_ne hx, fun c hc => by cases hc⟩

theorem storeExtent_writes (env : Env) (content : Bytes) : WritesAtCursor 0 content (storeExtent env content) := by
  intro w h r w' hwrite
  unfold storeExtent at hwrite
  split at hwrite
  · obtain ⟨rfl, rfl⟩ := Prod.mk.inj hwrite
    exact ⟨[], by rw [FileDisk.writeAt_nil], fun _ _ => rfl, fun c hc => by cases hc⟩
  · rcases World.writeSync_cases env w h.disk (segmentBaseOffset + h.cursor) content with
      ⟨k, hw⟩ | ⟨left, k, -, hw⟩
    · rw [hw] at hwrite
      dsimp only at hwrite
      refine ⟨content, ?_⟩
      split at hwrite
      · obtain ⟨rfl, rfl⟩ := Prod.mk.inj hwrite
        exact ⟨World.setDisk_self, fun x hx => World.setDisk_of_ne hx, fun c hc => by cases hc⟩
      · obtain ⟨rfl, rfl⟩ := Prod.mk.inj hwrite
        refine ⟨World.setDisk_self, fun x hx => World.setDisk_of_ne hx, ?_⟩
        intro c hc
        obtain rfl := Res.ok.inj hc
        exact ⟨rfl, rfl, by omega⟩
    · rw [hw] at hwrite
      obtain ⟨rfl, rfl⟩ := Prod.mk.inj hwrite
      exact ⟨left, World.setDisk_self, fun x hx => World.setDisk_of_ne hx, fun c hc => by cases hc⟩

/-! ## The replica loop -/

section Replicas

variable {headerLen : Nat} {buf : Bytes} {writeOne : World → DiskHandle → Res PoolError Nat × World} {id : DiskId}
  {w w' : World} {p p' : Pool}

/-- What stops one disk's turn is its device, or a full segment. -/
theorem appendRecord_err {env : Env} {w w' : World} {record : Segment.Record} {h : DiskHandle} {e : PoolError}
    (hw : appendRecord env record w h = (.err e, w')) : ∃ x, e = .io x := by
  rw [appendRecord_eq] at hw
  split at hw
  · exact ⟨_, (Res.err.inj (Prod.mk.inj hw).1).symm⟩
  · split at hw
    · exact ⟨_, (Res.err.inj (Prod.mk.inj hw).1).symm⟩
    · cases (Prod.mk.inj hw).1

theorem storeExtent_err {env : Env} {w w' : World} {content : Bytes} {h : DiskHandle} {e : PoolError}
    (hw : storeExtent env content w h = (.err e, w')) : ∃ x, e = .io x := by
  unfold storeExtent at hw
  split at hw
  · cases (Prod.mk.inj hw).1
  · split at hw
    · exact ⟨_, (Res.err.inj (Prod.mk.inj hw).1).symm⟩
    · split at hw
      · cases (Prod.mk.inj hw).1
      · cases (Prod.mk.inj hw).1

/-- The disks of a pool after one cursor moved. -/
def moveCursor (p : Pool) (id : DiskId) (handle : DiskHandle) (cursor : Nat) : Pool :=
  { p with disks := p.disks.insert id { handle with cursor := cursor } }

theorem moveCursor_disks (p : Pool) (id id' : DiskId) (handle : DiskHandle) (cursor : Nat) :
    (p.moveCursor id handle cursor).disks[id']? =
      if id = id' then some { handle with cursor := cursor } else p.disks[id']? := by
  unfold moveCursor
  rw [Std.ExtTreeMap.getElem?_insert]
  simp only [Std.LawfulEqCmp.compare_eq_iff_eq]

/-- **Every way one turn of the loop can end**: without a disk; with some bytes at the disk's cursor, which stays; or
    with the whole buffer there, and the cursor past it. -/
theorem writeReplica_cases (hw : WritesAtCursor headerLen buf writeOne) {r : Res PoolError (DiskId × UInt64)}
    (h : writeReplica writeOne id (w, p) = (r, w', p')) :
    (r = .err .unplaceable ∧ w' = w ∧ p' = p) ∨
    ∃ handle left, p.disks[id]? = some handle ∧
      w'.disk handle.disk = (w.disk handle.disk).writeAt (segmentBaseOffset + handle.cursor) left ∧
      (∀ x, x ≠ handle.disk → w'.disk x = w.disk x) ∧
      ((p' = p ∧ ∀ x, r ≠ .ok x) ∨
        (left = buf ∧ p' = p.moveCursor id handle (handle.cursor + buf.length) ∧
          r = .ok (id, UInt64.ofNat handle.cursor) ∧ segmentBaseOffset + handle.cursor + headerLen < 2 ^ 64)) := by
  unfold writeReplica at h
  dsimp only at h
  split at h
  · obtain ⟨rfl, rfl, rfl⟩ := h
    exact Or.inl ⟨rfl, rfl, rfl⟩
  · rename_i handle hid
    right
    generalize hout : writeOne w handle = out at h
    obtain ⟨q, w₁⟩ := out
    obtain ⟨left, hdisk, hother, hok⟩ := hw w handle q w₁ hout
    refine ⟨handle, left, hid, ?_⟩
    cases q with
    | err e =>
        obtain ⟨rfl, rfl, rfl⟩ := h
        exact ⟨hdisk, hother, Or.inl ⟨rfl, by simp⟩⟩
    | panic =>
        obtain ⟨rfl, rfl, rfl⟩ := h
        exact ⟨hdisk, hother, Or.inl ⟨rfl, by simp⟩⟩
    | ok c =>
        obtain ⟨rfl, rfl, rfl⟩ := h
        obtain ⟨rfl, rfl, haddr⟩ := hok c rfl
        exact ⟨hdisk, hother, Or.inr ⟨rfl, rfl, rfl, haddr⟩⟩

/-- Bytes written at one disk's cursor leave everything below all cursors as it was. -/
theorem retains_of_write (hok : HandlesOk p) {handle : DiskHandle} {left : Bytes} (hid : p.disks[id]? = some handle)
    (hdisk : w'.disk handle.disk = (w.disk handle.disk).writeAt (segmentBaseOffset + handle.cursor) left)
    (hother : ∀ x, x ≠ handle.disk → w'.disk x = w.disk x) : Retains (w, p) (w', p) := by
  intro id' h' hid'
  refine ⟨h', hid', rfl, Nat.le_refl _, ?_⟩
  intro off n bs _ hend hread
  by_cases hsame : h'.disk = handle.disk
  · obtain rfl : id' = id := by rw [hok id' h' hid', hok id handle hid, hsame]
    obtain rfl : handle = h' := Option.some.inj (hid.symm.trans hid')
    show (w'.disk handle.disk).readAt off n = some bs
    rw [hdisk]
    exact FileDisk.readAt_writeAt_disjoint hread (Or.inl hend)
  · show (w'.disk h'.disk).readAt off n = some bs
    rw [hother _ hsame]
    exact hread

theorem retains_moveCursor {handle : DiskHandle} {cursor : Nat} (hid : p.disks[id]? = some handle)
    (hle : handle.cursor ≤ cursor) : Retains (w, p) (w, p.moveCursor id handle cursor) := by
  intro id' h' hid'
  by_cases hsame : id = id'
  · subst hsame
    obtain rfl : handle = h' := Option.some.inj (hid.symm.trans hid')
    refine ⟨{ handle with cursor := cursor }, ?_, rfl, hle, fun _ _ _ _ _ hread => hread⟩
    rw [moveCursor_disks, if_pos rfl]
  · exact ⟨h', by rw [moveCursor_disks, if_neg hsame]; exact hid', rfl, Nat.le_refl _, fun _ _ _ _ _ hread => hread⟩

theorem HandlesOk.moveCursor (hok : HandlesOk p) {handle : DiskHandle} {cursor : Nat}
    (hid : p.disks[id]? = some handle) : HandlesOk (p.moveCursor id handle cursor) := by
  intro id' h' hid'
  rw [moveCursor_disks] at hid'
  split at hid'
  · rename_i hsame
    obtain rfl := Option.some.inj hid'
    rw [← hsame]
    exact hok id handle hid
  · exact hok id' h' hid'

/-- What the data phases keep, from any state with its handles in order. -/
def KeepsData (a b : World × Pool) : Prop := HandlesOk a.2 → HandlesOk b.2 ∧ Retains a b

theorem keepsData_refl (a : World × Pool) : KeepsData a a := fun hok => ⟨hok, retains_refl a⟩

theorem keepsData_trans (a b c : World × Pool) (hab : KeepsData a b) (hbc : KeepsData b c) : KeepsData a c := by
  intro hok
  obtain ⟨hokb, hrab⟩ := hab hok
  obtain ⟨hokc, hrbc⟩ := hbc hokb
  exact ⟨hokc, hrab.trans hrbc⟩

/-- **Step lemma.** One turn of the loop, however it ends. -/
theorem keeps_replica (hw : WritesAtCursor headerLen buf writeOne) (id : DiskId) :
    Action.Keeps KeepsData (writeReplica writeOne id) := by
  rintro ⟨w, p⟩ hok
  generalize hout : writeReplica writeOne id (w, p) = out
  obtain ⟨r, w', p'⟩ := out
  rcases writeReplica_cases hw hout with ⟨-, rfl, rfl⟩ | ⟨handle, left, hid, hdisk, hother, hend⟩
  · exact keepsData_refl _ hok
  · have hwrite := retains_of_write hok hid hdisk hother
    rcases hend with ⟨rfl, -⟩ | ⟨-, rfl, -, -⟩
    · exact ⟨hok, hwrite⟩
    · exact ⟨hok.moveCursor hid, hwrite.trans (retains_moveCursor hid (Nat.le_add_right _ _))⟩

/-- **Run lemma.** The loop retains everything below the cursors, however it ends. -/
theorem keeps_replicas (hw : WritesAtCursor headerLen buf writeOne) (ids : List DiskId) :
    Action.Keeps KeepsData (writeReplicas writeOne ids) :=
  keeps_writeReplicas keepsData_refl keepsData_trans (keeps_replica hw) ids

/-- The replica a turn of the loop reports is stored. -/
theorem stored_writeReplica (hw : WritesAtCursor headerLen buf writeOne) (hlen : headerLen ≤ buf.length)
    {r : DiskId × UInt64} (h : writeReplica writeOne id (w, p) = (.ok r, w', p')) :
    r.1 = id ∧ Stored (w', p') headerLen (buf.drop headerLen) r := by
  rcases writeReplica_cases hw h with ⟨he, -⟩ | ⟨handle, left, hid, hdisk, hother, hend⟩
  · cases he
  · rcases hend with ⟨-, hne⟩ | ⟨rfl, rfl, hr, haddr⟩
    · exact absurd rfl (hne r)
    · obtain rfl := Res.ok.inj hr
      have hcur : (UInt64.ofNat handle.cursor).toNat = handle.cursor := by
        rw [UInt64.toNat_ofNat', Nat.mod_eq_of_lt (by omega)]
      refine ⟨rfl, { handle with cursor := handle.cursor + left.length }, ?_, ?_, ?_, ?_⟩
      · show (p.moveCursor id handle _).disks[id]? = _
        rw [moveCursor_disks, if_pos rfl]
      · show (UInt64.ofNat handle.cursor).toNat + headerLen + (left.drop headerLen).length ≤ handle.cursor + left.length
        rw [hcur, List.length_drop]
        omega
      · rw [hcur]
        exact haddr
      · show (w'.disk handle.disk).readAt (segmentBaseOffset + (UInt64.ofNat handle.cursor).toNat + headerLen) _ = _
        rw [hcur, hdisk]
        have hold : Holds ((w.disk handle.disk).writeAt (segmentBaseOffset + handle.cursor) left).bytes
            (segmentBaseOffset + handle.cursor) (left.take headerLen ++ left.drop headerLen) := by
          rw [List.take_append_drop]
          exact holds_patch_self _ _ _
        obtain ⟨-, hpay⟩ := holds_append.mp hold
        rw [List.length_take, Nat.min_eq_left hlen] at hpay
        refine FileDisk.readAt_of_holds hpay ?_
        rcases FileDisk.writeAt_end_le (w.disk handle.disk) (segmentBaseOffset + handle.cursor) left with rfl | hend
        · exact Or.inl List.drop_nil
        · exact Or.inr (by rw [List.length_drop]; omega)

/-- **Every replica a successful loop reports is stored**, one per disk asked for. -/
theorem stored_writeReplicas (hw : WritesAtCursor headerLen buf writeOne) (hlen : headerLen ≤ buf.length)
    {ids : List DiskId} {replicas : List (DiskId × UInt64)} (hok : HandlesOk p)
    (h : writeReplicas writeOne ids (w, p) = (.ok replicas, w', p')) :
    replicas.map Prod.fst = ids ∧ ∀ r ∈ replicas, Stored (w', p') headerLen (buf.drop headerLen) r := by
  induction ids generalizing w p replicas with
  | nil =>
      obtain ⟨hr, -⟩ := Prod.mk.inj h
      obtain rfl := Res.ok.inj hr
      exact ⟨rfl, by simp⟩
  | cons id ids ih =>
      obtain ⟨r, ⟨w₁, p₁⟩, hfirst, h⟩ := Action.bind_eq_ok.mp h
      obtain ⟨rest, ⟨w₂, p₂⟩, hrest, h⟩ := Action.bind_eq_ok.mp h
      obtain ⟨hr, hs⟩ := Prod.mk.inj h
      obtain rfl := Res.ok.inj hr
      obtain ⟨rfl, rfl⟩ := Prod.mk.inj hs
      obtain ⟨hidr, hstored⟩ := stored_writeReplica hw hlen hfirst
      have hok₁ : HandlesOk p₁ := by
        have := (keeps_replica hw id (w, p) hok).1
        rw [hfirst] at this
        exact this
      obtain ⟨hids, hall⟩ := ih hok₁ hrest
      refine ⟨by rw [List.map_cons, hidr, hids], ?_⟩
      intro x hx
      rcases List.mem_cons.mp hx with rfl | hx
      · have hkeep := (keeps_replicas hw ids (w₁, p₁) hok₁).2
        rw [hrest] at hkeep
        exact hstored.mono hkeep
      · exact hall x hx

end Replicas

/-! ## Whole operations -/

variable {env : Env} {w w' : World} {p p' : Pool}

/-- **Data phases keep what every write at a cursor keeps.** -/
theorem keeps_dataPhase {R : World × Pool → World × Pool → Prop} (hrefl : ∀ a, R a a)
    (htrans : ∀ a b c, R a b → R b c → R a c)
    (hturn : ∀ headerLen buf writeOne id, WritesAtCursor headerLen buf writeOne →
      Action.Keeps R (writeReplica writeOne id))
    {op : PoolOp} {x : PoolM MetaOp} (hop : dataPhase env op = some x) : Action.Keeps R x := by
  cases dataPhase_cases hop with
  | append =>
      exact keeps_appendPhase hrefl htrans (fun _ id => hturn _ _ _ id (appendRecord_writes env _))
  | completeConvert =>
      exact keeps_extentPhase hrefl htrans (fun content id => hturn _ _ _ id (storeExtent_writes env content))
  | write =>
      exact keeps_extentPhase hrefl htrans (fun content id => hturn _ _ _ id (storeExtent_writes env content))

theorem keepsData_dataPhase {op : PoolOp} {x : PoolM MetaOp} (hop : dataPhase env op = some x) :
    Action.Keeps KeepsData x :=
  keeps_dataPhase keepsData_refl keepsData_trans (fun _ _ _ id hw => keeps_replica hw id) hop

/-- No data phase changes the pool map. -/
theorem poolMap_dataPhase {op : PoolOp} {x : PoolM MetaOp} (hop : dataPhase env op = some x) :
    (x (w, p)).2.2.poolMap = p.poolMap := by
  refine keeps_dataPhase (R := fun a b => b.2.poolMap = a.2.poolMap) (fun _ => rfl)
    (fun _ _ _ h h' => h'.trans h) ?_ hop (w, p)
  rintro headerLen buf writeOne id hw ⟨w, p⟩
  generalize hout : writeReplica writeOne id (w, p) = out
  obtain ⟨r, w', p'⟩ := out
  rcases writeReplica_cases hw hout with ⟨-, -, rfl⟩ | ⟨handle, left, -, -, -, ⟨rfl, -⟩ | ⟨-, rfl, -, -⟩⟩
  · rfl
  · rfl
  · rfl

/-- And no call does. -/
theorem poolMap_step {op : PoolOp} {res : Res PoolError PoolVal} (h : step env op (w, p) = (res, w', p'))
    (hres : res ≠ .panic) : p'.poolMap = p.poolMap :=
  step_rule (I := fun _ p₁ => p₁.poolMap = p.poolMap) rfl (fun _ hop => poolMap_dataPhase hop) (fun _ _ _ => rfl)
    (fun _ _ _ _ _ _ _ h₁ _ _ => h₁) h hres

theorem keepsData_prepareAppend (inode : InodeId) (payload : Bytes) :
    Action.Keeps KeepsData (prepareAppend env inode payload) :=
  keeps_appendPhase keepsData_refl keepsData_trans (fun _ id => keeps_replica (appendRecord_writes env _) id)

theorem keepsData_prepareExtents (inode : InodeId) (plan : World → Pool → Res PoolError (RedundancyScheme × Bytes))
    (mkOp : List Extent → MetaOp) : Action.Keeps KeepsData (prepareExtents env inode plan mkOp) :=
  keeps_extentPhase keepsData_refl keepsData_trans (fun content id => keeps_replica (storeExtent_writes env content) id)

/-- **A metadata operation whose frame fits the log's region retains everything.** -/
theorem retains_applyMeta {env : Env} {w w' : World} {p : Pool} {s' : MetaStore} {op : MetaOp}
    {res : Res MetaStoreError Unit} (hwf : MetaWf p.metaStore)
    (hfit : p.metaStore.walCursor + (MetaStore.opFrame env.ord op).length ≤ Wal.walCapacityBytes)
    (h : p.metaStore.apply env w op = (res, w', s')) : Retains (w, p) (w', { p with metaStore := s' }) := by
  intro id handle hid
  refine ⟨handle, hid, rfl, Nat.le_refl _, ?_⟩
  intro off n bs hoff _ hread
  have hbase := walCapacity_le_segmentBase
  show (w'.disk handle.disk).readAt off n = some bs
  rcases MetaStore.apply_disk hwf.2 h handle.disk with hsame | ⟨buf, hlen, hw⟩
  · rw [hsame]
    exact hread
  · rw [hw, hwf.1]
    exact FileDisk.readAt_writeAt_disjoint hread (Or.inr (by omega))

/-- **Everything below the cursors survives an operation**, whatever fails and wherever it stops, as long as its frames
    fit the log's region. -/
theorem keepsData_step {op : PoolOp} {res : Res PoolError PoolVal} (hwf : MetaWf p.metaStore)
    (hfit : ∀ c ∈ p.metaCalls env w op, c.Fits) (h : step env op (w, p) = (res, w', p')) (hres : res ≠ .panic) :
    KeepsData (w, p) (w', p') := by
  have hkept : MetaWf p'.metaStore ∧ KeepsData (w, p) (w', p') := by
    refine step_rule (I := fun v q => MetaWf q.metaStore ∧ KeepsData (w, p) (v, q)) ⟨hwf, keepsData_refl _⟩ ?_ ?_ ?_ h
      hres
    · intro x hop
      rw [show (x (w, p)).2.2.metaStore = p.metaStore from sameStore_dataPhase hop (w, p)]
      exact ⟨hwf, keepsData_dataPhase hop (w, p)⟩
    · intro id s halloc
      exact ⟨hwf.alloc halloc, fun hok => ⟨hok, fun id h hid => retains_refl (w, p) id h hid⟩⟩
    · rintro mop w₁ p₁ q w₂ s₂ hhands ⟨hwf₁, hkept₁⟩ happly -
      have hret := retains_applyMeta hwf₁ (hfit _ hhands.mem_metaCalls) happly
      exact ⟨hwf₁.apply happly, keepsData_trans _ _ _ hkept₁ (fun hok => ⟨hok, hret⟩)⟩
  exact hkept.2

end Tartine.Pool
