import Tartine.Meta.PoolContent
import Tartine.Meta.PoolRecords

/-!
# `Meta.PoolTable` — mode, locator and size of every inode agree

`AppendChunk` adds to a file's size, `CompleteConvert` swaps mode and locator and leaves the size alone, `UpdateExtents`
recomputes it. What ties the three fields together is `InodeRecord.Consistent`, and it holds of every record of every
reachable table: within a session because each data phase hands the log an operation that fits the record it read, and
across a reopen because the log replays to the live table.

* `consistent_of_recStep` — one operation on one record;
* `RunWith.tableOk` — every state of every run whose log stays within its region and reaches the primary before a reopen.
-/

namespace Tartine

open Basis Codec

/-- Where an extent ends. -/
def Extent.stop (x : Extent) : Nat := x.fileOffset.toNat + x.len.toNat

/-- **What a record says about itself**: until it is writable, its chunks are numbered from zero and add up to its size;
    from then on its extents end within its size, and the last of them at it. -/
structure InodeRecord.Consistent (rec : InodeRecord) : Prop where
  chunked : rec.mode = .appendOnly ∨ rec.mode = .converting → ∃ chunks, rec.data = .chunkLog chunks ∧
    chunks.map (fun c => c.chunkSeq.toNat) = List.range chunks.length ∧
    rec.size.toNat = (chunks.map (fun c => c.len.toNat)).sum
  mapped : rec.mode = .writable → ∃ xs, rec.data = .extents xs ∧ (∀ x ∈ xs, x.stop ≤ rec.size.toNat) ∧
    rec.size.toNat = (xs.map Extent.stop).foldr max 0

namespace InodeRecord.Consistent

variable {rec : InodeRecord}

/-- A chunk log belongs to a file that is not writable. -/
theorem mode_of_chunkLog (h : rec.Consistent) {chunks : List ChunkPointer} (hdata : rec.data = .chunkLog chunks) :
    rec.mode = .appendOnly ∨ rec.mode = .converting := by
  cases hmode : rec.mode with
  | appendOnly => exact Or.inl rfl
  | converting => exact Or.inr rfl
  | writable =>
      obtain ⟨xs, hxs, -⟩ := h.mapped hmode
      rw [hdata] at hxs
      cases hxs

end InodeRecord.Consistent

theorem le_foldr_max {l : List Nat} {n : Nat} (h : n ∈ l) : n ≤ l.foldr max 0 := by
  induction l with
  | nil => cases h
  | cons m l ih =>
      rcases List.mem_cons.mp h with rfl | h
      · exact Nat.le_max_left _ _
      · exact Nat.le_trans (ih h) (Nat.le_max_right _ _)

theorem toNat_foldl_max (l : List UInt64) (n : UInt64) :
    (l.foldl max n).toNat = max n.toNat ((l.map UInt64.toNat).foldr max 0) := by
  induction l generalizing n with
  | nil => simp
  | cons m l ih =>
      rw [List.foldl_cons, ih, UInt64.toNat_max, List.map_cons, List.foldr_cons]
      omega

/-- The size `UpdateExtents` computes is the largest end. -/
theorem size_of_extentEnds {xs : List Extent} {ends : List UInt64} (h : extentEnds xs = .ok ends) :
    (ends.foldl max 0).toNat = (xs.map Extent.stop).foldr max 0 := by
  have hends : ends.map UInt64.toNat = xs.map Extent.stop := by
    have hall := Res.forall₂_of_mapM h
    clear h
    induction hall with
    | nil => rfl
    | cons hx _ ih =>
        rw [List.map_cons, List.map_cons, ih, Res.checkedAdd_eq_ok.mp hx, UInt32.toNat_toUInt64]
        rfl
  rw [toNat_foldl_max, hends]
  exact Nat.zero_max _

namespace Pool

variable {env : Env} {w w' w₁ : World} {p p' p₁ : Pool} {s' : MetaStore} {op : PoolOp} {mop : MetaOp}

/-! ## One operation on one record -/

/-- A record read chunk by chunk is as long as its chunks say. -/
theorem length_readChunks {chunks : List ChunkPointer} {out content : Bytes}
    (h : chunks.foldlM (fun out chunk => do
      let bytes ← p.readReplicated w chunk.replicas Segment.headerLen chunk.len.toNat
      pure (out ++ bytes)) out = Res.ok content) :
    content.length = out.length + (chunks.map (fun c => c.len.toNat)).sum := by
  induction chunks generalizing out with
  | nil =>
      obtain rfl := Res.ok.inj h
      rfl
  | cons c chunks ih =>
      rw [List.foldlM_cons] at h
      obtain ⟨out', hout, h⟩ := Res.bind_eq_ok.mp h
      obtain ⟨bytes, hread, hout⟩ := Res.bind_eq_ok.mp hout
      obtain rfl := Res.ok.inj hout
      rw [ih h, List.length_append, length_readReplicated hread, List.map_cons, List.sum_cons]
      omega

/-- A copy does not change the length of the buffer. -/
theorem length_copyInto {buf out bytes : Bytes} {start : Nat} (h : copyInto buf start bytes = .ok out) :
    out.length = buf.length := by
  unfold copyInto at h
  split at h
  · obtain rfl := Res.ok.inj h
    simp only [List.length_append, List.length_take, List.length_drop]
    omega
  · cases h

theorem length_copyExtents {xs : List Extent} {buf out : Bytes}
    (h : xs.foldlM (fun out extent => do
      let bytes ← p.readReplicated w extent.replicas 0 extent.len.toNat
      copyInto out extent.fileOffset.toNat bytes) buf = Res.ok out) : out.length = buf.length := by
  induction xs generalizing buf with
  | nil =>
      obtain rfl := Res.ok.inj h
      rfl
  | cons x xs ih =>
      rw [List.foldlM_cons] at h
      obtain ⟨mid, hmid, h⟩ := Res.bind_eq_ok.mp h
      obtain ⟨bytes, -, hcopy⟩ := Res.bind_eq_ok.mp hmid
      rw [ih h, length_copyInto hcopy]

/-- What the operation must say, to fit the record it will find. -/
def OpFits (v : View) : MetaOp → Prop
  | .createInode rec           => rec.Consistent
  | .appendChunk inode chunk   => ∀ rec chunks, v.readInode inode = .ok rec → rec.data = .chunkLog chunks →
      chunk.chunkSeq.toNat = chunks.length
  | .completeConvert inode xs  => ∀ rec, v.readInode inode = .ok rec →
      (∀ x ∈ xs, x.stop ≤ rec.size.toNat) ∧ rec.size.toNat = (xs.map Extent.stop).foldr max 0
  | _                          => True

/-- **The record an operation leaves behind is consistent.** -/
theorem consistent_of_recStep {v : View} {rec : InodeRecord} (hv : v.Each InodeRecord.Consistent) (hop : OpFits v mop)
    (hstep : v.RecStep mop rec) : rec.Consistent := by
  cases hstep with
  | createInode => exact hop
  | @appendChunk _ chunk old chunks size hrec hdata hsize =>
      obtain ⟨-, hold⟩ := hv.of_readInode hrec
      have hmode := hold.mode_of_chunkLog hdata
      obtain ⟨chunks', hdata', hseqs, hsum⟩ := hold.chunked hmode
      rw [hdata] at hdata'
      obtain rfl := DataLocator.chunkLog.inj hdata'
      refine ⟨fun _ => ⟨chunks ++ [chunk], rfl, ?_, ?_⟩, fun hw => ?_⟩
      · rw [List.map_append, hseqs, List.map_singleton, hop old chunks hrec hdata, List.length_append,
          List.length_singleton, List.range_succ]
      · show size.toNat = _
        rw [hsize, hsum, List.map_append, List.map_singleton, List.sum_append, List.sum_singleton]
      · rw [show old.mode = .writable from hw] at hmode
        simp at hmode
  | beginConvert hrec hmode =>
      obtain ⟨-, hold⟩ := hv.of_readInode hrec
      exact ⟨fun _ => hold.chunked (Or.inl hmode), fun hw => by cases hw⟩
  | @completeConvert _ extents old hrec hmode =>
      refine ⟨fun hnot => ?_, fun _ => ⟨extents, rfl, hop old hrec⟩⟩
      rcases hnot with hnot | hnot
      · cases hnot
      · cases hnot
  | setRedundancyScheme hrec =>
      obtain ⟨-, hold⟩ := hv.of_readInode hrec
      exact ⟨hold.chunked, hold.mapped⟩
  | @updateExtents _ extents old ends hrec hmode hends =>
      have hsize := size_of_extentEnds hends
      refine ⟨fun hnot => ?_, fun _ => ⟨extents, rfl, ?_, hsize⟩⟩
      · rw [show old.mode = .writable from hmode] at hnot
        simp at hnot
      · intro x hx
        show x.stop ≤ (ends.foldl max 0).toNat
        rw [hsize]
        exact le_foldr_max (List.mem_map_of_mem hx)

/-! ## What is handed to the log fits -/

/-- A record of the table, with a list of chunks the log can have held. -/
def RecordOk (k : Nat) (rec : InodeRecord) : Prop := rec.Consistent ∧ rec.Lists (fun _ _ _ => True) k

/-- The table of a pool is consistent. -/
structure TableOk (p : Pool) : Prop where
  wf : MetaWf p.metaStore
  handles : HandlesOk p
  records : p.metaStore.view.Each (RecordOk p.metaStore.walCursor)
  keys : p.metaStore.view.KeysBelow

theorem TableOk.consistent (h : TableOk p) : p.metaStore.view.Each InodeRecord.Consistent :=
  h.records.mono (fun _ hrec => hrec.1)

/-- The one record the two readers of the table find. -/
theorem TableOk.readInode_unique {inode : InodeId} {rec rec' : InodeRecord} (h : TableOk p)
    (hfind : p.findInode inode = .ok rec) (hread : p.metaStore.view.readInode inode = .ok rec') : rec' = rec := by
  obtain ⟨hhas, -⟩ := h.records.of_getInode (findInode_eq_ok hfind)
  exact Res.ok.inj (hread.symm.trans hhas.readInode_eq)

/-- A conversion completes on a file below `2^32` bytes. -/
def SmallConversion (p : Pool) : PoolOp → Prop
  | .completeConvert inode => ∀ rec, p.getInode inode = .ok (some rec) → rec.size.toNat < 2 ^ 32
  | _                      => True

/-- What `complete_convert` stores is as long as the record says. -/
theorem length_planCompleteConvert {inode : InodeId} {redundancy : RedundancyScheme} {content : Bytes} (h : TableOk p)
    (hplan : p.planCompleteConvert w inode = .ok (redundancy, content)) :
    ∃ rec, p.findInode inode = .ok rec ∧ rec.size.toNat = content.length := by
  obtain ⟨rec, hrec, -, hmode, hread⟩ := planCompleteConvert_eq_ok hplan
  refine ⟨rec, hrec, ?_⟩
  obtain ⟨-, hok, -⟩ := h.records.of_getInode (findInode_eq_ok hrec)
  obtain ⟨chunks, hdata, -, hsum⟩ := hok.chunked (Or.inr hmode)
  unfold readFullContent at hread
  simp only [hdata] at hread
  rw [hsum, length_readChunks hread, List.length_nil, Nat.zero_add]

theorem newFile_consistent (inode : InodeId) (redundancy : RedundancyScheme) (uid gid unixMode : UInt32)
    (now : UInt64) : (newFile inode redundancy uid gid unixMode now).Consistent :=
  ⟨fun _ => ⟨[], rfl, rfl, rfl⟩, fun hw => by cases hw⟩

theorem rootRecord_consistent (n : Nat) (now : UInt64) : (rootRecord n now).Consistent := by
  refine ⟨?_, fun _ => ⟨[], rfl, by simp, rfl⟩⟩
  rintro (h | h)
  · cases h
  · cases h

/-- **What a call hands to the log fits the record it will find.** -/
theorem Hands.opFits (hh : Hands env w p op mop w₁ p₁) (h : TableOk p) (hsmall : SmallConversion p op) :
    OpFits p₁.metaStore.view mop := by
  cases hh with
  | phase hop hx =>
      rw [metaStore_of_dataPhase hop hx]
      cases dataPhase_cases hop with
      | append =>
          obtain ⟨rec, chunks, _, _, hrec, -, hdata, -, -, -, rfl⟩ := prepareAppend_stores h.handles hx
          intro rec' chunks' hread hdata'
          obtain rfl := h.readInode_unique hrec hread
          rw [hdata] at hdata'
          obtain rfl := DataLocator.chunkLog.inj hdata'
          obtain ⟨hhas, -⟩ := h.records.of_readInode hread
          have hfits := hhas.fits.2
          rw [hdata] at hfits
          have hlt : chunks.length < 2 ^ 32 := hfits.1
          show (UInt64.ofNat chunks.length).toNat = chunks.length
          rw [UInt64.toNat_ofNat', Nat.mod_eq_of_lt (by omega)]
      | completeConvert =>
          obtain ⟨_, content, hplan, hend⟩ := prepareExtents_stores h.handles hx
          obtain ⟨rec, hrec, hsize⟩ := length_planCompleteConvert h hplan
          have hlt : content.length < 2 ^ 32 := by
            rw [← hsize]
            exact hsmall rec (getInode_of_view (findInode_eq_ok hrec))
          rcases hend with ⟨rfl, rfl⟩ | ⟨-, ids, replicas, -, -, -, rfl⟩
          · intro rec' hread
            obtain rfl := h.readInode_unique hrec hread
            exact ⟨by simp, hsize⟩
          · intro rec' hread
            obtain rfl := h.readInode_unique hrec hread
            have hstop : Extent.stop ⟨0, UInt32.ofNat content.length, replicas, Crc32c.checksum content⟩ =
                rec'.size.toNat := by
              show 0 + (UInt32.ofNat content.length).toNat = _
              rw [UInt32.toNat_ofNat', Nat.mod_eq_of_lt hlt, hsize, Nat.zero_add]
            refine ⟨?_, ?_⟩
            · exact List.forall_mem_singleton.mpr (Nat.le_of_eq hstop)
            · rw [List.map_singleton, hstop]
              exact (Nat.max_zero _).symm
      | write =>
          obtain ⟨xs, rfl⟩ := prepareExtents_mkOp hx
          trivial
  | beginConvert => trivial
  | setRedundancy => trivial
  | unlink => trivial
  | create halloc => exact newFile_consistent _ _ _ _ _ _
  | link halloc hcreate => trivial

/-! ## The invariant of a run -/

theorem Tabled.tableOk {n : Nat} (h : Tabled n (fun _ rec => rec.Consistent) w p) : TableOk p :=
  ⟨h.wf, h.handles, h.records, h.keys⟩

/-- The conversions of the run complete on files below `2^32` bytes. -/
def Event.SmallConversion : Event → Prop
  | .call _ _ p op _ => Pool.SmallConversion p op
  | _                => True

instance (p : Pool) : DecidablePred (SmallConversion p)
  | .completeConvert inode =>
      match h : p.getInode inode with
      | .ok (some rec) => decidable_of_iff (rec.size.toNat < 2 ^ 32) (by simp [SmallConversion, h])
      | .ok none       => .isTrue (by simp [SmallConversion, h])
      | .err e         => .isTrue (by simp [SmallConversion, h])
      | .panic         => .isTrue (by simp [SmallConversion, h])
  | .createFile .. => .isTrue trivial
  | .append ..     => .isTrue trivial
  | .beginConvert _ => .isTrue trivial
  | .write ..      => .isTrue trivial
  | .setRedundancy .. => .isTrue trivial
  | .unlink ..     => .isTrue trivial
  | .read ..       => .isTrue trivial

instance : DecidablePred Event.SmallConversion
  | .format ..       => .isTrue trivial
  | .call _ _ p op _ => inferInstanceAs (Decidable (Pool.SmallConversion p op))
  | .reopen _        => .isTrue trivial

/-- **Run lemma.** Every state of every run has a consistent table, and a log that replays to one. -/
theorem RunWith.tableOk {opens : Nat → Prop} {n : Nat} {events : List Event} (hself : opens n)
    (hrun : RunWith opens n w p events) (hfits : LogFits events) (hdurable : ReopenedDurable events)
    (hsmall : ∀ e ∈ events, e.SmallConversion) : TableOk p ∧ (PrimaryUp events → ReplayKeys w) := by
  have hleaves : LeavesRecords opens (fun _ rec => rec.Consistent) events := by
    intro m env w p op res mop w₁ p₁ rec hm he h h₁ hhands hstep
    have hop := hhands.opFits h.tableOk (hsmall _ he)
    exact consistent_of_recStep h₁.tableOk.consistent hop hstep
  obtain ⟨⟨m, -, htabled⟩, hkeys⟩ := hrun.tabled (fun _ _ _ _ hrec => hrec)
    (fun _ now _ => rootRecord_consistent n now) hself hfits hdurable hleaves
  exact ⟨htabled.tableOk, hkeys⟩

end Pool

end Tartine
